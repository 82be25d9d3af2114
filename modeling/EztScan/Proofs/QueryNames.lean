import EztScan.Language.Source
import EztScan.Proofs.Lossless

/-!
# Names of queries

A query is named by its first words. Whether it calls a procedure, and so how many words are taken,
is decided on the text as a whole, but it is the first word that decides (`isExecution_strip`):
capital letters are made one by one, and a blank stays a blank.

If words are left out, then the name is made of the words, and one blank stands between two of them.
A query without more words than that is its own name, however its words are set apart. So the name
does not always follow from the words (`queryName_normal`), but in both cases the name of a name is
the name itself.

What is needed about words follows from one equation: a text falls apart at any of its blanks
(`Text.words_append_blank`).
-/

namespace EztScan

open List

/-! ### Words -/

namespace Text

variable {b : Char} {w cs : List Char} {ws : List (List Char)}

/-- A word: some characters, none of them blank. -/
structure IsWord (w : List Char) : Prop where
  ne_nil : w ≠ []
  ink : ∀ c ∈ w, isBlank c = false

theorem pushChar_blank (hb : isBlank b = true) (ws : List (List Char)) :
    pushChar b ws = [] :: ws := by
  cases ws with
  | nil | cons => rw [pushChar, if_pos hb]

/-- What stands behind a word that has been begun is not touched. -/
theorem foldr_pushChar_cons (cs : List Char) (ws : List (List Char)) :
    cs.foldr pushChar ([] :: ws) = cs.foldr pushChar [[]] ++ ws ∧ cs.foldr pushChar [[]] ≠ [] := by
  induction cs with
  | nil => simp
  | cons c cs ih =>
    rw [foldr_cons, foldr_cons, ih.1]
    obtain ⟨v, vs, hv⟩ := exists_cons_of_ne_nil ih.2
    rw [hv]
    by_cases hc : isBlank c = true
    · simp [pushChar, hc]
    · simp [pushChar, hc]

/-- A word that is begun at the end of a text leaves at most an empty word there. -/
theorem foldr_pushChar_nil (cs : List Char) :
    cs.foldr pushChar [[]] = cs.foldr pushChar [] ∨
      cs.foldr pushChar [[]] = cs.foldr pushChar [] ++ [[]] := by
  induction cs with
  | nil => exact .inr rfl
  | cons c cs ih =>
    rw [foldr_cons, foldr_cons]
    rcases ih with heq | heq
    · exact .inl (by rw [heq])
    · rw [heq]
      cases cs.foldr pushChar [] with
      | nil =>
        by_cases hc : isBlank c = true
        · exact .inr (by simp [pushChar, hc])
        · exact .inl (by simp [pushChar, hc])
      | cons =>
        by_cases hc : isBlank c = true
        · exact .inr (by simp [pushChar, hc])
        · exact .inr (by simp [pushChar, hc])

/-- A text falls apart at each of its blanks. -/
theorem words_append_blank (hb : isBlank b = true) (as bs : List Char) :
    words (as ++ b :: bs) = words as ++ words bs := by
  unfold words
  rw [foldr_append, foldr_cons, pushChar_blank hb, (foldr_pushChar_cons as _).1, filter_append]
  rcases foldr_pushChar_nil as with heq | heq
  · rw [heq]
  · simp [heq]

theorem words_cons_blank (hb : isBlank b = true) (cs : List Char) : words (b :: cs) = words cs :=
  words_append_blank hb [] cs

theorem words_of_isWord (hw : IsWord w) : words w = [w] := by
  obtain ⟨hne, hink⟩ := hw
  have hfold : ∀ c cs, (∀ d ∈ c :: cs, isBlank d = false) →
      (c :: cs).foldr pushChar [] = [c :: cs] := by
    intro c cs
    induction cs generalizing c with
    | nil => intro h; simp [pushChar, h c]
    | cons d cs ih =>
      intro h
      obtain ⟨hc, hcs⟩ := forall_mem_cons.mp h
      rw [foldr_cons, ih d hcs]
      simp [pushChar, hc]
  obtain ⟨c, cs, rfl⟩ := exists_cons_of_ne_nil hne
  unfold words
  rw [hfold c cs hink]
  rfl

theorem isWord_of_mem_words (cs : List Char) : ∀ w ∈ words cs, IsWord w := by
  have hink : ∀ w ∈ cs.foldr pushChar [], ∀ c ∈ w, isBlank c = false := by
    induction cs with
    | nil => exact forall_mem_nil _
    | cons c cs ih =>
      rw [foldr_cons]
      by_cases hc : isBlank c = true
      · rw [pushChar_blank hc]
        exact forall_mem_cons.mpr ⟨forall_mem_nil _, ih⟩
      · cases hws : cs.foldr pushChar [] with
        | nil => simp [pushChar, hc]
        | cons =>
          rw [hws] at ih
          obtain ⟨hv, hvs⟩ := forall_mem_cons.mp ih
          rw [pushChar, if_neg hc]
          exact forall_mem_cons.mpr ⟨forall_mem_cons.mpr ⟨Bool.eq_false_iff.mpr hc, hv⟩, hvs⟩
  intro w hw
  obtain ⟨hmem, hne⟩ := mem_filter.mp hw
  exact ⟨by simpa using hne, hink w hmem⟩

theorem words_blanks_append {blanks : List Char} (h : ∀ b ∈ blanks, isBlank b = true)
    (cs : List Char) : words (blanks ++ cs) = words cs := by
  induction blanks with
  | nil => rfl
  | cons b blanks ih =>
    obtain ⟨hb, hblanks⟩ := forall_mem_cons.mp h
    rw [cons_append, words_cons_blank hb, ih hblanks]

theorem words_append_blanks {blanks : List Char} (h : ∀ b ∈ blanks, isBlank b = true)
    (cs : List Char) : words (cs ++ blanks) = words cs := by
  cases blanks with
  | nil => rw [append_nil]
  | cons =>
    obtain ⟨hb, hblanks⟩ := forall_mem_cons.mp h
    have hnone := words_blanks_append hblanks []
    rw [append_nil] at hnone
    rw [words_append_blank hb, hnone]
    exact append_nil _

theorem words_strip (cs : List Char) : words (strip cs) = words cs := by
  have hright : strip cs ++ (stripLeft cs).rtakeWhile isBlank = stripLeft cs :=
    rdropWhile_append_rtakeWhile ..
  have hleft : cs.takeWhile isBlank ++ stripLeft cs = cs := takeWhile_append_dropWhile
  calc words (strip cs)
      = words (strip cs ++ (stripLeft cs).rtakeWhile isBlank) :=
        (words_append_blanks (fun _ => mem_rtakeWhile_imp) _).symm
    _ = words (cs.takeWhile isBlank ++ stripLeft cs) := by
        rw [hright, words_blanks_append fun _ => mem_takeWhile_imp]
    _ = words cs := by rw [hleft]

/-- A text that neither begins nor ends with a blank has nothing to strip. -/
theorem strip_eq_self (hfirst : ∀ c ∈ cs.head?, isBlank c = false)
    (hlast : ∀ c ∈ cs.getLast?, isBlank c = false) : strip cs = cs := by
  have hleft : stripLeft cs = cs := by
    cases cs with
    | nil => rfl
    | cons c =>
      refine dropWhile_cons_of_neg ?_
      rw [hfirst c rfl]
      exact Bool.false_ne_true
  unfold strip
  rw [hleft]
  refine rdropWhile_eq_self_iff.mpr fun hne => ?_
  rw [hlast _ (getLast?_eq_some_getLast hne)]
  exact Bool.false_ne_true

theorem first_of_strip (cs : List Char) : ∀ c ∈ (strip cs).head?, isBlank c = false := by
  intro c hc
  obtain ⟨rest, hrest⟩ : strip cs <+: stripLeft cs := List.rdropWhile_prefix ..
  have hnot := head?_dropWhile_not isBlank cs
  rw [show cs.dropWhile isBlank = strip cs ++ rest from hrest.symm, head?_append,
    show (strip cs).head? = some c from hc] at hnot
  exact hnot

theorem strip_strip (cs : List Char) : strip (strip cs) = strip cs := by
  refine strip_eq_self (first_of_strip cs) fun c hc => ?_
  obtain ⟨hne, rfl⟩ := mem_getLast?_eq_getLast hc
  exact Bool.eq_false_iff.mpr (rdropWhile_last_not _ _ hne)

/-- Words with one blank between each two of them. -/
def joined (ws : List (List Char)) : List Char :=
  [' '].intercalate ws

theorem joined_cons (w : List Char) (hws : ws ≠ []) : joined (w :: ws) = w ++ ' ' :: joined ws := by
  obtain ⟨v, vs, rfl⟩ := exists_cons_of_ne_nil hws
  simp [joined]

theorem words_joined (h : ∀ w ∈ ws, IsWord w) : words (joined ws) = ws := by
  induction ws with
  | nil => rfl
  | cons w ws ih =>
    obtain ⟨hw, hws⟩ := forall_mem_cons.mp h
    by_cases hnil : ws = []
    · rw [hnil]
      simpa [joined] using words_of_isWord hw
    · rw [joined_cons w hnil, words_append_blank (by decide), words_of_isWord hw, ih hws]
      rfl

theorem strip_joined (h : ∀ w ∈ ws, IsWord w) : strip (joined ws) = joined ws := by
  refine strip_eq_self ?_ ?_
  · cases ws with
    | nil => exact fun _ hc => (Option.not_mem_none _ hc).elim
    | cons w ws =>
      -- the text begins with the first word
      obtain ⟨more, hmore⟩ : w <+: joined (w :: ws) := by
        by_cases hnil : ws = []
        · simp [hnil, joined]
        · exact ⟨_, (joined_cons w hnil).symm⟩
      obtain ⟨hne, hink⟩ := h w mem_cons_self
      obtain ⟨c, w', rfl⟩ := exists_cons_of_ne_nil hne
      rw [← hmore]
      rintro _ ⟨⟩
      exact hink c mem_cons_self
  · -- and ends with the last one
    induction ws with
    | nil => exact fun _ hc => (Option.not_mem_none _ hc).elim
    | cons w ws ih =>
      obtain ⟨hw, hws⟩ := forall_mem_cons.mp h
      by_cases hnil : ws = []
      · intro c hc
        rw [hnil] at hc
        exact hw.ink c (mem_of_getLast? (by simpa [joined] using hc))
      · have hne : joined ws ≠ [] := by
          intro hjoined
          have hwords := words_joined hws
          rw [hjoined] at hwords
          exact hnil hwords.symm
        rw [joined_cons w hnil, getLast?_append_of_ne_nil _ (cons_ne_nil _ _),
          getLast?_cons_of_ne_nil hne]
        exact ih hws

/-! ### Calls of procedures -/

theorem upperChar_of_blankCodes :
    ∀ n ∈ codesOf blankRanges, upperChar (Char.ofNat n) = [Char.ofNat n] := by
  decide +kernel

theorem upperChar_of_isBlank (hb : isBlank b = true) : upperChar b = [b] := by
  have hupper := upperChar_of_blankCodes b.toNat (mem_codesOf hb)
  rwa [Char.ofNat_toNat] at hupper

/-- A word that begins a text in which a blank follows on something else begins with that. -/
theorem isPrefix_of_append_blank {p as bs : List Char} (hp : ∀ c ∈ p, isBlank c = false)
    (hb : isBlank b = true) (h : p <+: as ++ b :: bs) : p <+: as := by
  rcases List.prefix_or_prefix_of_prefix h (prefix_append as (b :: bs)) with h' | ⟨more, rfl⟩
  · exact h'
  · cases more with
    | nil => exact (append_nil as).symm ▸ prefix_rfl
    | cons c =>
      -- the first character beyond would have to be the blank
      obtain ⟨rfl, -⟩ := cons_prefix_cons.mp ((prefix_append_right_inj as).mp h)
      rw [hp c (mem_append_right _ mem_cons_self)] at hb
      cases hb

end Text

namespace Language

open Text

variable {b : Char} {cs : List Char}

theorem isExecution_iff : isExecution cs = true ↔ "EXEC".toList <+: cs.flatMap upperChar := by
  simp only [isExecution, upper, List.isPrefixOf_iff_prefix, String.toList_ofList]

theorem isExecution_append_blank (hb : isBlank b = true) (as bs : List Char) :
    isExecution (as ++ b :: bs) = isExecution as := by
  rw [Bool.eq_iff_iff, isExecution_iff, isExecution_iff, flatMap_append, flatMap_cons,
    upperChar_of_isBlank hb]
  have hink : "EXEC".toList.all (fun c => !isBlank c) = true := by decide
  constructor
  · exact isPrefix_of_append_blank (fun c hc => by simpa using all_eq_true.mp hink c hc) hb
  · exact fun h => h.trans (prefix_append _ _)

/-- How many words the name of a query has at most: two if the first word is the one for calls of
procedures, or begins with it, in any case of its letters. -/
def nameLimit (ws : List (List Char)) : Nat :=
  if ws.head?.any isExecution then 2 else 4

/-- The first word of a text decides. -/
theorem isExecution_strip (cs : List Char) :
    isExecution (strip cs) = (words cs).head?.any isExecution := by
  have hfirst := first_of_strip cs
  rw [← words_strip]
  generalize strip cs = text at hfirst
  cases text with
  | nil => rfl
  | cons c text =>
    obtain ⟨w, rest, hsplit, hw, hrest⟩ : ∃ w rest, c :: text = w ++ rest ∧ IsWord w ∧
        ∀ b ∈ rest.head?, isBlank b = true := by
      refine ⟨_, _, (takeWhile_append_dropWhile (p := fun d => !isBlank d)).symm, ⟨?_, ?_⟩, ?_⟩
      · rw [takeWhile_cons_of_pos (by rw [hfirst c rfl]; rfl)]
        exact cons_ne_nil _ _
      · exact fun d hd => by simpa using mem_takeWhile_imp hd
      · intro b hb
        have hnot := head?_dropWhile_not (fun d => !isBlank d) (c :: text)
        rw [show _ = some b from hb] at hnot
        simpa using hnot
    rw [hsplit]
    cases rest with
    | nil => rw [append_nil, words_of_isWord hw, head?_cons, Option.any_some]
    | cons b =>
      have hb := hrest b rfl
      rw [isExecution_append_blank hb, words_append_blank hb, words_of_isWord hw, singleton_append,
        head?_cons, Option.any_some]

theorem queryName_eq (text : String) :
    let ws := words text.toList
    queryName text = String.ofList
      (if nameLimit ws < ws.length then joined (ws.take (nameLimit ws))
        else strip text.toList) := by
  intro ws
  unfold queryName
  dsimp only
  rw [isExecution_strip, words_strip]
  change (if nameLimit ws < ws.length then _ else _) = _
  split
  · change " ".intercalate ((ws.take (nameLimit ws)).map String.ofList) = _
    rw [← String.toList_inj]
    simp [joined]
  · rfl

theorem nameLimit_take (ws : List (List Char)) :
    nameLimit (ws.take (nameLimit ws)) = nameLimit ws := by
  have hpos : nameLimit ws ≠ 0 := by
    unfold nameLimit
    split
    · decide
    · decide
  unfold nameLimit at hpos ⊢
  rw [head?_take, if_neg hpos]

/-- **Which names are normal.** The name of a query consists of its first words with one blank
between each two exactly if words are left out or the whole query is written so; and queries of the
same words have the same name exactly if words are left out or they are the same text between their
outer blanks. The name of a name is the name. -/
theorem queryName_normal (text : String) :
    let ws := words text.toList
    (queryName text = String.ofList (joined (ws.take (nameLimit ws))) ↔
        nameLimit ws < ws.length ∨ strip text.toList = joined ws) ∧
      (∀ other : String, words other.toList = ws →
        (queryName other = queryName text ↔ nameLimit ws < ws.length ∨
          strip other.toList = strip text.toList)) ∧
      queryName (queryName text) = queryName text := by
  intro ws
  have hname : queryName text = _ := queryName_eq text
  -- a text that is cut off is its words with single blanks, and others keep their blanks
  by_cases hlong : nameLimit ws < ws.length
  · rw [if_pos hlong] at hname
    have hwords : ∀ w ∈ ws.take (nameLimit ws), IsWord w := fun w hw =>
      isWord_of_mem_words text.toList w (mem_of_mem_take hw)
    refine ⟨iff_of_true hname (.inl hlong), fun other hother => ?_, ?_⟩
    · rw [queryName_eq other, hother, if_pos hlong, hname]
      exact iff_of_true rfl (.inl hlong)
    · rw [hname, queryName_eq, String.toList_ofList, words_joined hwords, nameLimit_take,
        strip_joined hwords, if_neg]
      rw [length_take]
      omega
  · rw [if_neg hlong] at hname
    have htake : ws.take (nameLimit ws) = ws := take_of_length_le (Nat.not_lt.mp hlong)
    refine ⟨?_, fun other hother => ?_, ?_⟩
    · rw [hname, htake, String.ofList_inj]
      exact (or_iff_right hlong).symm
    · rw [queryName_eq other, hother, if_neg hlong, hname, String.ofList_inj]
      exact (or_iff_right hlong).symm
    · rw [hname, queryName_eq, String.toList_ofList, words_strip, if_neg hlong, strip_strip]

/-- Blanks do not show in the name of a call of a procedure that has a parameter. -/
theorem queryName_normal_of_call :
    words "exec  P\nA".toList = words "exec P A".toList ∧
      queryName "exec  P\nA" = queryName "exec P A" := by
  have hwords : words "exec  P\nA".toList = words "exec P A".toList := by decide +kernel
  exact ⟨hwords, ((queryName_normal "exec P A").2.1 "exec  P\nA" hwords).mpr
    (.inl (by decide +kernel))⟩

/-- Two blanks between the words of a short query are in its name. -/
theorem queryName_of_two_blanks :
    words "SELECT  1".toList = words "SELECT 1".toList ∧ queryName "SELECT  1" = "SELECT  1" ∧
      queryName "SELECT 1" = "SELECT 1" := by
  decide +kernel

end Language

end EztScan
