import ContentAddressed.Proofs.Bytes
import ContentAddressed.Text.Blank
import Mathlib.Data.List.TakeWhile

/-!
# Texts and the blanks around them

A text is its trimmed form with blanks on both sides, and a form without blanks is found whatever
blanks stand around it.
-/

namespace ContentAddressed.Text

variable {core before after : List Char}

theorem exists_blanks (cs : List Char) : ∃ before after, cs = before ++ trimList cs ++ after ∧
    (∀ c ∈ before, isBlank c) ∧ ∀ c ∈ after, isBlank c := by
  refine ⟨cs.takeWhile isBlank,
    ((cs.dropWhile isBlank).reverse.takeWhile isBlank).reverse, ?_, ?_, ?_⟩
  · rw [trimList, List.append_assoc, ← List.reverse_append, List.takeWhile_append_dropWhile,
      List.reverse_reverse, List.takeWhile_append_dropWhile]
  · exact fun c hc => List.mem_takeWhile_imp hc
  · exact fun c hc => List.mem_takeWhile_imp (List.mem_reverse.mp hc)

theorem dropWhile_blanks {rest : List Char} (hbefore : ∀ c ∈ before, isBlank c)
    (hrest : ∀ c ∈ rest.head?, isBlank c = false) :
    (before ++ rest).dropWhile isBlank = rest := by
  rw [List.dropWhile_append_of_pos hbefore]
  cases rest with
  | nil => rfl
  | cons c cs => rw [List.dropWhile_cons_of_neg (by simpa using hrest c rfl)]

theorem trimList_surrounded (hcore : ∀ c ∈ core, isBlank c = false)
    (hbefore : ∀ c ∈ before, isBlank c) (hafter : ∀ c ∈ after, isBlank c) :
    trimList (before ++ core ++ after) = core := by
  by_cases hnone : core = []
  · subst hnone
    have hall : (before ++ [] ++ after).dropWhile isBlank = [] := by
      rw [List.dropWhile_eq_nil_iff, List.append_nil]
      exact fun c hc => (List.mem_append.mp hc).elim (hbefore c) (hafter c)
    rw [trimList, hall]
    rfl
  · have hfirst : ∀ c ∈ (core ++ after).head?, isBlank c = false := by
      rw [List.head?_append, Option.or_of_isSome (List.isSome_head?.mpr hnone)]
      exact fun c hc => hcore c (List.mem_of_mem_head? hc)
    have hlast : ∀ c ∈ core.reverse.head?, isBlank c = false :=
      fun c hc => hcore c (List.mem_reverse.mp (List.mem_of_mem_head? hc))
    have hback : ∀ c ∈ after.reverse, isBlank c := fun c hc => hafter c (List.mem_reverse.mp hc)
    rw [trimList, List.append_assoc, dropWhile_blanks hbefore hfirst, List.reverse_append,
      dropWhile_blanks hback hlast, List.reverse_reverse]

theorem trim_eq {text : String} (h : ∀ c ∈ text.toList, isBlank c = false) :
    trim text = text := by
  have hlist : trimList ([] ++ text.toList ++ []) = text.toList :=
    trimList_surrounded h (by simp) (by simp)
  rw [List.nil_append, List.append_nil] at hlist
  rw [trim, hlist, String.ofList_toList]

theorem isBlank_of_isPrintableChar {c : Char} (h : Ascii.isPrintableChar c) (hspace : c ≠ ' ') :
    isBlank c = false := by
  have hbounds := Ascii.bounds_of_isPrintableChar h
  have hnat : c.toNat ≠ 32 := fun hc => hspace (by rw [← Char.ofNat_toNat c, hc])
  simp only [isBlank, blankRanges, List.any_cons, List.any_nil, Bool.or_false, Bool.or_eq_false_iff,
    Bool.and_eq_false_iff, decide_eq_false_iff_not]
  omega

end ContentAddressed.Text
