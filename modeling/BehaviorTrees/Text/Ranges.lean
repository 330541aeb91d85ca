/-!
# Ranges of code points

A class of characters is a table of ranges in ascending order, both ends included.
-/

namespace BehaviorTrees.Text

abbrev Ranges := List (Nat × Nat)

namespace Ranges

/-- Looks no further than the first range that begins after the number. -/
def contains : Ranges → Nat → Bool
  | [], _ => false
  | (low, high) :: rest, n => low ≤ n && (n ≤ high || contains rest n)

/-- No range is empty, and each begins after the end of the one before. -/
def Ascending : Ranges → Prop
  | [] => True
  | (low, high) :: rest => low ≤ high ∧ (∀ r ∈ rest, high < r.1) ∧ Ascending rest

/-- In an ascending table nothing is missed by stopping early. -/
theorem contains_iff {ranges : Ranges} (h : Ascending ranges) (n : Nat) :
    ranges.contains n = true ↔ ∃ r ∈ ranges, r.1 ≤ n ∧ n ≤ r.2 := by
  induction ranges with
  | nil => simp [contains]
  | cons head rest ih =>
      obtain ⟨low, high⟩ := head
      obtain ⟨_, hnext, hrest⟩ := h
      simp only [contains, Bool.and_eq_true, Bool.or_eq_true, decide_eq_true_eq, ih hrest,
        List.mem_cons, exists_eq_or_imp]
      constructor
      · rintro ⟨hlow, hhigh | hr⟩
        · exact .inl ⟨hlow, hhigh⟩
        · exact .inr hr
      · rintro (⟨hlow, hhigh⟩ | ⟨r, hr, hlow, hhigh⟩)
        · exact ⟨hlow, .inl hhigh⟩
        · have := hnext r hr
          exact ⟨by omega, .inr ⟨r, hr, hlow, hhigh⟩⟩

end Ranges
end BehaviorTrees.Text
