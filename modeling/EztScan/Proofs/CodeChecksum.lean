import EztScan.Proofs.Declarable

/-!
# The check sum of the code

The check sum of a tree goes through its nodes, however deep they are, and passes blanks and
comments over. So it is the check sum of one text, that of all code in the tree (`codeCrc_eq`): the
check sum of a text can be continued where another text has ended (`crcBytes_append`).

Which nodes a stage without blocks makes, and where it leaves comments, has no influence on the
code: the code that was handed on, that on the desk and that still to come, read in this order,
never changes (`Move.code_eq`). Unlike the order of all tokens, this needs no condition on the
comments, which may be overtaken by nodes. So the check sum of a program is that of the code of its
source (`codeCrc_of_program`).
-/

namespace EztScan

open Element List OpenNode Text

variable {es out : List Element}

/-! ### Check sums of texts -/

namespace Text

/-- A check sum is continued: the sum of two texts starts, for the second one, from the sum of the
first one. -/
theorem crcBytes_append (start : UInt32) (as bs : List UInt8) :
    crcBytes start (as ++ bs) = crcBytes (crcBytes start as) bs := by
  unfold crcBytes
  rw [foldl_append, UInt32.not_not]

theorem crcBytes_nil (start : UInt32) : crcBytes start [] = start := by
  unfold crcBytes
  rw [foldl_nil, UInt32.not_not]

/-- Between check sums of 32 bits no bit is lost, and the empty text is no exception. -/
theorem crc_toNat (start : UInt32) (s : String) :
    crc start.toNat s = (crcBytes start (utf8 s)).toNat := by
  unfold crc
  by_cases hs : s.isEmpty = true
  · obtain rfl : s = "" := String.isEmpty_iff.mp hs
    rw [if_pos hs]
    change (start.toNat : Int) = (crcBytes start []).toNat
    rw [crcBytes_nil]
  · have hstart : ((start.toNat : Int) % 4294967296).toNat = start.toNat := by
      have hlt := start.toNat_lt
      omega
    rw [if_neg hs, hstart, UInt32.ofNat_toNat]

end Text

-- the check value of this check sum
example : crcBytes 0 (utf8 "123456789") = 0xCBF43926 := by
  decide +kernel

/-! ### Check sums of trees -/

namespace Element

/-- The tokens of some elements that are neither blank nor comments, from left to right. -/
def codeTokens (es : List Element) : List Token :=
  (leavesOfList es).filter Token.isCode

@[simp] theorem codeTokens_nil : codeTokens [] = [] := by
  unfold codeTokens
  rw [leavesOfList_nil, filter_nil]

theorem codeTokens_cons (e : Element) (es : List Element) :
    codeTokens (e :: es) = e.leaves.filter Token.isCode ++ codeTokens es := by
  unfold codeTokens
  rw [leavesOfList_cons, filter_append]

@[simp] theorem codeTokens_append (as bs : List Element) :
    codeTokens (as ++ bs) = codeTokens as ++ codeTokens bs := by
  unfold codeTokens
  rw [leavesOfList_append, filter_append]

theorem codeTokens_singleton (e : Element) : codeTokens [e] = e.leaves.filter Token.isCode := by
  rw [codeTokens_cons, codeTokens_nil, append_nil]

@[simp] theorem codeTokens_node (n : Node) : codeTokens [n.toElement] = codeTokens n.children := by
  rw [codeTokens_singleton, Node.toElement, leaves_node]
  rfl

/-- There is no code in blanks and comments. -/
theorem codeTokens_of_idle (h : ∀ e ∈ es, e.isCode = false) : codeTokens es = [] := by
  induction es with
  | nil => exact codeTokens_nil
  | cons e es ih =>
    obtain ⟨he, hes⟩ := forall_mem_cons.mp h
    rw [codeTokens_cons, ih hes, append_nil]
    cases e with
    | token t =>
      have ht : t.isCode = false := he
      rw [leaves_token, filter_cons_of_neg (Bool.eq_false_iff.mp ht), filter_nil]
    | node => cases he

theorem codeTokens_map_token (ts : List Token) :
    codeTokens (ts.map .token) = ts.filter Token.isCode := by
  unfold codeTokens
  rw [leavesOfList_map_token]

mutual

/-- The check sum of an element that is code goes on from token to token. -/
theorem crc_eq_foldl (start : Int) : ∀ e : Element, e.isCode = true →
    e.crc start = (codeTokens [e]).foldl (fun sum t => t.crc sum) start
  | .token t, h => by
    have ht : t.isCode = true := h
    unfold crc
    rw [codeTokens_singleton, leaves_token, filter_cons_of_pos ht, filter_nil, foldl_cons,
      foldl_nil]
  | .node hd cs, _ => by
    unfold crc
    rw [crcOfList_eq_foldl start cs, codeTokens_singleton, leaves_node]
    rfl

/-- The check sum of some elements goes on from one token of the code to the next one. -/
theorem crcOfList_eq_foldl (start : Int) : ∀ es : List Element,
    crcOfList start es = (codeTokens es).foldl (fun sum t => t.crc sum) start
  | [] => by
    unfold crcOfList
    rw [codeTokens_nil, foldl_nil]
  | e :: es => by
    unfold crcOfList
    rw [crcOfList_eq_foldl _ es, ← singleton_append, codeTokens_append, foldl_append]
    cases hcode : e.isCode with
    | true => rw [if_pos rfl, crc_eq_foldl start e hcode]
    | false =>
      have hidle : codeTokens [e] = [] := codeTokens_of_idle fun x hx => mem_singleton.mp hx ▸ hcode
      rw [if_neg Bool.false_ne_true, hidle, foldl_nil]

end

end Element

namespace Lexer

/-- The check sum of some tokens, one after the other, is that of all their texts as one. -/
theorem foldl_crc_eq (ts : List Token) :
    ∀ start : UInt32, ts.foldl (fun sum t => t.crc sum) (start.toNat : Int) =
      (crcBytes start (utf8 (String.ofList (textOf ts)))).toNat := by
  induction ts with
  | nil =>
    intro start
    exact congrArg (fun sum : UInt32 => (sum.toNat : Int)) (crcBytes_nil start).symm
  | cons t ts ih =>
    intro start
    have htoken : t.crc start.toNat = (crcBytes start (utf8 (t.text.getD ""))).toNat := by
      unfold Token.crc
      cases t.text with
      | some s => exact crc_toNat start s
      | none => exact congrArg (fun sum : UInt32 => (sum.toNat : Int)) (crcBytes_nil start).symm
    have htexts : utf8 (String.ofList (textOf (t :: ts))) =
        utf8 (t.text.getD "") ++ utf8 (String.ofList (textOf ts)) := by
      unfold utf8 textOf
      rw [String.toList_ofList, String.toList_ofList, flatMap_cons, flatMap_append]
    rw [foldl_cons, htoken, ih, htexts, crcBytes_append]

end Lexer

/-- **The check sum of a tree is that of its code**, as one text. -/
theorem Element.codeCrc_eq (n : Node) : n.toElement.codeCrc 0 =
      (crcBytes 0
        (utf8 (String.ofList (Lexer.textOf (codeTokens n.children))))).toNat - 2147483648 := by
  have hsum := Lexer.foldl_crc_eq (codeTokens n.children) 0
  unfold codeCrc crcOffset Node.toElement crc
  rw [crcOfList_eq_foldl, ← hsum]
  rfl

/-! ### The order of the code -/

/-- The grammar has no blocks, wherever it is used. -/
structure Blockless (scope : Scope) : Prop where
  top : scope.top.blocks = {}
  below : ∀ {way : List NodeKind} {index : Index}, scope.indexAt way = .ok index → index.blocks = {}

theorem blockless_everywhere {index : Index} (h : index.blocks = {}) :
    Blockless (.everywhere index) where
  top := h
  below := by
    intro way index' hindex
    rw [← Except.ok.inj hindex]
    exact h

theorem blockless_programScopes : ∀ scope ∈ Language.programScopes, Blockless scope := by
  simp only [Language.programScopes, forall_mem_cons]
  exact ⟨blockless_everywhere rfl, blockless_everywhere rfl, blockless_everywhere rfl,
    forall_mem_nil _⟩

namespace Grouping

variable {index : Index} {regroup : Node → Work Ledger Node}

/-- The elements have the same code, in the same order. -/
def SameCode (_ : Nat) (es es' : List Element) (_ : Nat) : Prop :=
  codeTokens es' = codeTokens es

theorem composed_sameCode : Composed SameCode where
  refl _ _ := rfl
  append h₁ h₂ := by
    unfold SameCode at *
    rw [codeTokens_append, h₁, h₂, ← codeTokens_append]
  node h₁ h₂ h₃ := by
    unfold SameCode at *
    change codeTokens [Node.toElement ⟨_, _⟩] = codeTokens [Node.toElement ⟨_, _⟩]
    simp only [codeTokens_node, codeTokens_append, h₁, h₂, h₃]

/-- **No move without blocks changes the order of the code.** -/
theorem Move.code_eq {d d' : Desk} {e : Element} {rest rest' : List Element}
    (hblocks : index.blocks = {}) (hreg : Respects SameCode regroup)
    (h : Move index regroup k d e rest out d' rest' k') (hstack : d.stack = []) (hd : d.Sound)
    (he : e.Sound) (hrest : ∀ x ∈ rest, x.Sound) :
    d'.stack = [] ∧ codeTokens (out ++ d'.line ++ rest') = codeTokens (d.line ++ e :: rest) := by
  have hcomments : codeTokens d.comments = [] := codeTokens_of_idle hd.comments
  -- a node that is complete is handed on, as there are no blocks
  have hdeliver : ∀ {d₁ : Desk} (n : Node), d₁.stack = [] →
      codeTokens (n.children ++ d₁.line ++ rest') = codeTokens (d.line ++ e :: rest) →
      (d₁.deliver n).2.stack = [] ∧
        codeTokens ((d₁.deliver n).1 ++ (d₁.deliver n).2.line ++ rest') =
          codeTokens (d.line ++ e :: rest) := by
    intro d₁ n hs hcode
    rw [Desk.deliver_of_stack_nil hs]
    refine ⟨hs, ?_⟩
    rw [codeTokens_append, codeTokens_append, codeTokens_node, ← codeTokens_append,
      ← codeTokens_append, hcode]
  cases h with
  | close o o' taken rest ho htakes hc =>
    refine hdeliver _ hstack ?_
    simp [Desk.line, ho, children_complete hc, children_setClosing]
  | leave o o' rest ho htakes hc =>
    refine hdeliver _ hstack ?_
    simp [Desk.line, ho, children_complete hc]
  | interrupt o o' r taken rest ho hyields hr hc d' hd' =>
    subst hd'
    refine hdeliver _ hstack ?_
    simp [Desk.line, ho, children_complete hc, children_begin]
  | await | hold =>
    refine ⟨hstack, ?_⟩
    simp [Desk.line]
  | extend o rest ho | flush rest ho =>
    refine ⟨hstack, ?_⟩
    simp [Desk.line, ho]
  | term r o o' taken children rest ho hr hbegin hch hc l l' hl hrun =>
    have hsound : o.Sound := by
      obtain ⟨htaken, -⟩ := forall_mem_append.mp hrest
      exact hbegin ▸ .begin hd.comments (forall_mem_cons.mpr ⟨he, htaken⟩) r k
    have hcode : codeTokens children = codeTokens (d.comments ++ e :: taken) := by
      rw [← children_begin, ← hbegin]
      exact Respects.regroupAll composed_sameCode hreg hsound.children hrun
    have hchildren := children_complete hc
    rw [node_withNode] at hchildren
    refine hdeliver _ hstack ?_
    simp [Desk.line, ho, hchildren, hcode, codeTokens_cons]
  | begin r taken rest ho =>
    refine ⟨hstack, ?_⟩
    simp [Desk.line, ho, children_begin]
  | finish | restart | «open» | head | place => cases hstack.symm.trans ‹d.stack = _ :: _›
  | enter r taken rest out inHeader d' ho hr => exact absurd hr (not_firstFit_of_empty hblocks)
  | pass rest ho =>
    -- comments that wait are overtaken, but they are no code
    refine ⟨hstack, ?_⟩
    simp [Desk.line, ho, hcomments, codeTokens_cons]

/-- A run of moves without blocks keeps the code in its order. -/
theorem Taking.code_eq {d d' : Desk} (hblocks : index.blocks = {})
    (hreg : Respects SameCode regroup) (h : Taking index regroup l d es out d' l')
    (hstack : d.stack = []) (hd : d.Sound) (hes : ∀ e ∈ es, e.Sound) :
    d'.stack = [] ∧ codeTokens (out ++ d'.line) = codeTokens (d.line ++ es) := by
  induction h with
  | done => exact ⟨hstack, by rw [nil_append, append_nil]⟩
  | @step _ _ _ _ d d₁ d' e e' rest rest₁ new out he hm _ ih =>
    obtain ⟨hhead, hrest⟩ := forall_mem_cons.mp hes
    have hsound := hreg.sound he.rebuilt hhead
    have hsame : codeTokens [e'] = codeTokens [e] := hreg.related he hhead
    obtain ⟨hstack₁, hmove⟩ := hm.code_eq hblocks hreg hstack hd hsound hrest
    obtain ⟨-, hd₁, hrest₁⟩ := hm.everywhere hreg.sound hd hsound hrest
    obtain ⟨hstack', hlater⟩ := ih hstack₁ hd₁ hrest₁
    refine ⟨hstack', ?_⟩
    calc codeTokens (new ++ out ++ d'.line)
        = codeTokens new ++ codeTokens (out ++ d'.line) := by rw [append_assoc, codeTokens_append]
      _ = codeTokens (new ++ d₁.line ++ rest₁) := by rw [hlater, ← codeTokens_append, append_assoc]
      _ = codeTokens (d.line ++ ([e'] ++ rest)) := hmove
      _ = codeTokens (d.line ++ ([e] ++ rest)) := by simp only [codeTokens_append, hsame]

/-- **A stage without blocks hands on the code in its order.** -/
theorem Grouped.code_eq (hblocks : index.blocks = {}) (hreg : Respects SameCode regroup)
    (h : Grouped index regroup {} es out) (hes : ∀ e ∈ es, e.Sound) :
    codeTokens out = codeTokens es := by
  obtain ⟨_, _, d', taken, closing, _, ht, hclosing, rfl⟩ := h
  obtain ⟨hstack, hcode⟩ := ht.code_eq hblocks hreg rfl .empty hes
  obtain ⟨-, hd'⟩ := ht.everywhere hreg.sound .empty hes
  have hcomments : codeTokens d'.comments = [] := codeTokens_of_idle hd'.comments
  -- a statement that is left open comes behind the comments, which are no code
  have hline : codeTokens closing = codeTokens d'.line := by
    unfold Desk.line
    obtain ⟨hs, rfl⟩ | ⟨o, o', hs, hc, rfl⟩ := hclosing.of_stack_nil hstack
    · rw [hs]
      rfl
    · rw [hs, codeTokens_append, codeTokens_append, hcomments, nil_append, append_nil,
        codeTokens_node, children_complete hc, Option.toList_some, flatMap_singleton]
  rw [codeTokens_append, hline, ← codeTokens_append]
  exact hcode

/-- **Regrouping keeps the code in its order**, if the grammar has no blocks. -/
theorem rebuilt_code {scope : Scope} (hscope : Blockless scope) (depth : Nat)
    (way : List NodeKind) : Respects SameCode (Stage.regroup scope [] depth way) :=
  composed_sameCode.respects (fun hindex hreg hes hgrouped =>
    Grouped.code_eq (hscope.below hindex) hreg ⟨_, _, hgrouped⟩ hes) depth way

end Grouping

/-- Stages without blocks keep everything sound, and keep the code in its order. -/
theorem Passed.code_eq {depth : Nat} {scopes : List Scope}
    (hscopes : ∀ scope ∈ scopes, Blockless scope) (h : Passed depth scopes es out)
    (hes : ∀ e ∈ es, e.Sound) : codeTokens out = codeTokens es := by
  induction h with
  | nil => rfl
  | @cons scope scopes es middle out hg _ ih =>
    obtain ⟨hscope, hscopes⟩ := forall_mem_cons.mp hscopes
    have hreg := Grouping.rebuilt_code hscope depth []
    rw [ih hscopes (hg.everywhere hreg.sound .empty hes), hg.code_eq hscope.top hreg hes]

/-! ### Programs -/

namespace Language

/-- The texts of all tokens of a source that are neither blank nor comments, one after the other. -/
def codeText (source : String) : String :=
  String.ofList (Lexer.textOf ((Lexer.lex source).filter Token.isCode))

/-- The source is not empty, is neither a macro nor marked by a preprocessor, and is read without a
fault. -/
structure IsReadable (source : String) : Prop where
  notMacro : ¬ "MACRO".toList <+: source.toList
  notMarked : ¬ "BEGIN_PROGRAM(".toList <+: source.toList
  tokens : Lexer.lex source ≠ []
  fault : (parse source).fault = none

/-- The code of a program is that of its source. -/
theorem IsReadable.program {source : String} (h : IsReadable source) :
    ∃ n : Node, nodes (parse source).elements = [n] ∧ n.head.kind.name = "Program" ∧
      Scan.treeOf source = .ok (.root n) ∧
      codeTokens n.children = (Lexer.lex source).filter Token.isCode := by
  obtain ⟨t, ts, htokens⟩ := exists_cons_of_ne_nil h.tokens
  obtain ⟨n, helements, hread⟩ := program_of_parse h.notMacro h.notMarked h.fault htokens
  have hcomments : nodes ((trailingComments ts).map .token) = [] := by
    refine filterMap_eq_nil_iff.mpr fun e he => ?_
    obtain ⟨c, -, rfl⟩ := mem_map.mp he
    rfl
  have hnodes : nodes (parse source).elements = n :: nodes ((trailingComments ts).map .token) := by
    rw [helements]
    rfl
  have hcode := (passed_at_depth h.notMacro h.notMarked h.fault).code_eq blockless_programScopes
    fun _ => everywhere_of_mem_map
  -- behind the program there are comments only
  have hbehind : codeTokens ((trailingComments ts).map .token) = [] := by
    refine codeTokens_of_idle fun e he => ?_
    obtain ⟨c, hc, rfl⟩ := mem_map.mp he
    exact not_isCode_of_mem_trailingComments hc
  rw [helements, ← singleton_append, codeTokens_append, codeTokens_node, hbehind, append_nil,
    codeTokens_map_token] at hcode
  refine ⟨n, by
    rw [hnodes, hcomments], by
    rw [hread.kind]; rfl, treeOf_of_elements h.fault helements hread.kind, hcode⟩

/-- **The check sum of a program sees only the code.** It is the check sum of the code of the source
as one text, so that sources with the same code have the same check sum. -/
theorem codeCrc_of_program {source : String} (h : IsReadable source) :
    ∃ n : Node, nodes (parse source).elements = [n] ∧ n.head.kind.name = "Program" ∧
      Scan.treeOf source = .ok (.root n) ∧
      n.toElement.codeCrc 0 = (Text.crcBytes 0 (Text.utf8 (codeText source))).toNat - 2147483648 ∧
      ∀ other, IsReadable other → codeText other = codeText source →
        ∀ m : Node, nodes (parse other).elements = [m] →
          m.toElement.codeCrc 0 = n.toElement.codeCrc 0 := by
  obtain ⟨n, hnodes, hkind, htree, hcode⟩ := h.program
  refine ⟨n, hnodes, hkind, htree, by rw [codeCrc_eq, hcode]; rfl, ?_⟩
  intro other hother hsame m hm
  obtain ⟨m', hnodes', -, -, hcode'⟩ := hother.program
  obtain rfl : m = m' := head_eq_of_cons_eq (hm.symm.trans hnodes')
  unfold codeText at hsame
  rw [codeCrc_eq, codeCrc_eq, hcode, hcode', hsame]

/-- The code of `commentedSource` without its comments, in other lines, and in other statements than
there. -/
def rewrappedSource : String :=
  "FILE A JOB\n INPUT  A GET\nA"

/-- Comments, blanks and lines make no difference to the check sum. -/
theorem codeCrc_of_commentedSource :
    (IsReadable commentedSource ∧ IsReadable rewrappedSource ∧
      codeText rewrappedSource = codeText commentedSource) ∧
      ∃ n : Node, nodes (parse commentedSource).elements = [n] ∧
        n.toElement.codeCrc 0 = -2052368600 ∧
        ∀ m : Node, nodes (parse rewrappedSource).elements = [m] →
          m.toElement.codeCrc 0 = -2052368600 := by
  have hcommented : IsReadable commentedSource :=
    ⟨by decide +kernel, by decide +kernel, by decide +kernel, by decide +kernel⟩
  have hrewrapped : IsReadable rewrappedSource :=
    ⟨by decide +kernel, by decide +kernel, by decide +kernel, by decide +kernel⟩
  have hsame : codeText rewrappedSource = codeText commentedSource := by decide +kernel
  have hsum : (crcBytes 0 (utf8 (codeText commentedSource))).toNat = 95115048 := by decide +kernel
  obtain ⟨n, hnodes, -, -, hcrc, hother⟩ := codeCrc_of_program hcommented
  rw [hsum] at hcrc
  exact ⟨⟨hcommented, hrewrapped, hsame⟩, n, hnodes, hcrc,
    fun m hm => (hother _ hrewrapped hsame m hm).trans hcrc⟩

end Language

end EztScan
