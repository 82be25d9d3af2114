import EztScan.Proofs.Scanning
import EztScan.Proofs.Words
import Mathlib.Data.List.TakeWhile

/-!
# Global names of programs

A program is known to the host by its path, followed by its type and its name in capital letters.
The name is taken from the path, so two programs can only have one global name if one path goes on
where the other one ends. That cannot be: the longer path would have the longer name, too, as
nothing that stands behind the first path leads into another directory. Hence **the global name of a
program tells its path** (`ProgramId.path_eq_of_guid_eq`).
-/

namespace EztScan

open List

variable {cs more : List Char}

/-! ### Slashes -/

namespace Text

theorem eq_slash_of_toUpper :
    ∀ n ∈ List.range 128, (Char.ofNat n).toUpper = '/' → Char.ofNat n = '/' := by
  decide +kernel

theorem eq_slash_of_mem_upperChar {c : Char} (h : '/' ∈ upperChar c) : c = '/' := by
  by_cases hascii : c.toNat < 128
  · have hcode := eq_slash_of_toUpper c.toNat (mem_range.mpr hascii)
    rw [Char.ofNat_toNat] at hcode
    unfold upperChar at h
    rw [if_pos hascii] at h
    exact hcode (mem_singleton.mp h).symm
  · cases code_of_mem_upperChar (Nat.not_lt.mp hascii) h

theorem not_mem_toList_upper {s : String} (h : '/' ∉ s.toList) : '/' ∉ (upper s).toList := by
  unfold upper
  rw [String.toList_ofList]
  intro hmem
  obtain ⟨c, hc, hslash⟩ := mem_flatMap.mp hmem
  exact h (eq_slash_of_mem_upperChar hslash ▸ hc)

/-! ### Last names of paths -/

namespace Path

theorem forall_bne_of_not_mem {c : Char} (h : c ∉ cs) : ∀ x ∈ cs.reverse, (x != c) = true := by
  intro x hx
  rw [bne_iff_ne]
  rintro rfl
  exact h (mem_reverse.mp hx)

theorem not_mem_basenameChars (cs : List Char) : '/' ∉ basenameChars cs := by
  unfold basenameChars
  rw [mem_reverse]
  intro h
  exact absurd (mem_takeWhile_imp h) (by decide)

/-- What is added to a path and leads into no other directory is added to its last name. -/
theorem basenameChars_append (h : '/' ∉ more) :
    basenameChars (cs ++ more) = basenameChars cs ++ more := by
  unfold basenameChars
  rw [reverse_append, takeWhile_append_of_pos (forall_bne_of_not_mem h), reverse_append,
    reverse_reverse]

theorem basenameChars_eq_self (h : '/' ∉ cs) : basenameChars cs = cs := by
  rw [← nil_append cs, basenameChars_append h]
  rfl

theorem dirChars_eq_nil (h : '/' ∉ cs) : dirChars cs = [] := by
  unfold dirChars
  rw [reverse_eq_nil_iff, dropWhile_eq_nil_iff]
  exact forall_bne_of_not_mem h

/-! ### Names without their extensions -/

theorem prefix_splitName (name : List Char) : (splitName name).1 <+: name := by
  unfold splitName
  dsimp only
  split
  · exact List.take_prefix _ _
  · exact prefix_refl _

/-- A longer name has the longer stem. -/
theorem prefix_splitName_append (name more : List Char) :
    (splitName name).1 <+: (splitName (name ++ more)).1 := by
  by_cases hdot : '.' ∈ more
  · -- the last dot stands in what was added, so all of the name stands before it
    have hne : (more.reverse.takeWhile (· != '.')).length ≠ more.reverse.length := by
      intro hlen
      have hall := (List.takeWhile_prefix (· != '.')).eq_of_length hlen
      have hmem : '.' ∈ more.reverse.takeWhile (· != '.') := by
        rw [hall]
        exact mem_reverse.mpr hdot
      exact absurd (mem_takeWhile_imp hmem) (by decide)
    have hle := (List.takeWhile_prefix (l := more.reverse) (· != '.')).length_le
    refine List.IsPrefix.trans (prefix_splitName name) ?_
    unfold splitName
    dsimp only
    rw [reverse_append, takeWhile_append, length_append, if_neg hne]
    generalize more.reverse.takeWhile (· != '.') = ext at hne hle
    rw [length_reverse] at hne hle ⊢
    have hname : name <+: (name ++ more).take (name.length + more.length - ext.length - 1) := by
      rw [take_append, take_of_length_le (by omega)]
      exact prefix_append _ _
    split
    · exact hname
    · exact prefix_append _ _
  · -- the last dot is that of the name, if there is one
    have hall : more.reverse.takeWhile (· != '.') = more.reverse := by
      rw [takeWhile_eq_self_iff]
      exact forall_bne_of_not_mem hdot
    unfold splitName
    dsimp only
    rw [reverse_append, takeWhile_append, length_append, if_pos (congrArg List.length hall)]
    generalize name.reverse.takeWhile (· != '.') = ext
    have hlen : (more.reverse ++ ext).reverse.length = more.length + ext.reverse.length := by
      rw [length_reverse, length_append, length_reverse, length_reverse]
    have hsub : name.length + more.length - (more.length + ext.reverse.length) - 1 =
        name.length - ext.reverse.length - 1 := by omega
    have hlt : (more.length + ext.reverse.length < name.length + more.length) =
        (ext.reverse.length < name.length) := by
      rw [Nat.add_comm name.length, Nat.add_lt_add_iff_left]
    rw [hlen, hsub, take_append_of_le_length (by omega)]
    simp only [hlt]
    split
    · exact prefix_refl _
    · exact prefix_append _ _

end Path

end Text

open Text

theorem Program.toList_nameAt (path : String) :
    (nameAt path).toList = (Path.splitName (Path.basenameChars path.toList)).1 := by
  have hslash := Path.not_mem_basenameChars path.toList
  simp only [nameAt, Path.splitExtension, Path.basename, String.toList_ofList,
    Path.basenameChars_eq_self hslash, Path.dirChars_eq_nil hslash, nil_append]

/-- The path goes on where another one ends: then the name is no shorter. -/
theorem Program.length_upper_nameAt_le {p q : String} (h : q.toList = p.toList ++ more)
    (hslash : '/' ∉ more) :
    (upper (nameAt p)).toList.length ≤ (upper (nameAt q)).toList.length := by
  have hstem : (nameAt p).toList <+: (nameAt q).toList := by
    rw [toList_nameAt, toList_nameAt, h, Path.basenameChars_append hslash]
    exact Path.prefix_splitName_append _ _
  obtain ⟨rest, hrest⟩ := hstem
  unfold upper
  rw [String.toList_ofList, String.toList_ofList, ← hrest, flatMap_append, length_append]
  exact Nat.le_add_right _ _

theorem ProgramId.toList_guid (i : ProgramId) :
    i.guid.toList = i.path.toList ++
      (".Eztprogram.".toList ++ (upper (Program.nameAt i.path)).toList) := by
  unfold ProgramId.guid
  simp only [String.toList_append, append_assoc]
  rfl

/-- No path with the global name of another program goes on where the path of that program ends. -/
theorem ProgramId.eq_nil_of_guid_eq {i j : ProgramId} (h : i.guid = j.guid)
    (hmore : j.path.toList = i.path.toList ++ more) : more = [] := by
  have hlists := congrArg String.toList h
  rw [toList_guid, toList_guid, hmore, append_assoc, append_cancel_left_eq] at hlists
  have hslash : '/' ∉ more := by
    intro hmem
    have hall : '/' ∈ ".Eztprogram.".toList ++ (upper (Program.nameAt i.path)).toList := by
      rw [hlists]
      exact mem_append_left _ hmem
    rcases mem_append.mp hall with hall | hall
    · exact absurd hall (by decide)
    · refine not_mem_toList_upper ?_ hall
      rw [Program.toList_nameAt]
      exact fun hname => Path.not_mem_basenameChars _ ((Path.prefix_splitName _).subset hname)
  have hle := Program.length_upper_nameAt_le hmore hslash
  have hlen := congrArg List.length hlists
  simp only [length_append] at hlen
  exact eq_nil_of_length_eq_zero (by omega)

/-- **The global name of a program tells its path.** -/
theorem ProgramId.path_eq_of_guid_eq {i j : ProgramId} (h : i.guid = j.guid) : i.path = j.path := by
  have hlists := congrArg String.toList h
  rw [toList_guid, toList_guid] at hlists
  -- one of the paths is where the other one begins
  rcases append_eq_append_iff.mp hlists with ⟨more, hmore, -⟩ | ⟨more, hmore, -⟩
  · rw [eq_nil_of_guid_eq h hmore, append_nil] at hmore
    exact String.toList_injective hmore.symm
  · rw [eq_nil_of_guid_eq h.symm hmore, append_nil] at hmore
    exact String.toList_injective hmore

end EztScan
