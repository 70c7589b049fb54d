namespace ApiCatalog.StableSort

variable {α : Type}

-- Put `a` in front of the first element that it may precede.
def place (le : α → α → Bool) (a : α) : List α → List α
  | [] => [a]
  | b :: rest => if le a b then a :: b :: rest else b :: place le a rest

-- Elements of the same rank keep their order. The recursion follows the list,
-- and a list that is almost in order takes few steps.
def sort (le : α → α → Bool) : List α → List α
  | [] => []
  | a :: rest => place le a (sort le rest)

theorem perm_place (le : α → α → Bool) (a : α) (l : List α) : (place le a l).Perm (a :: l) := by
  induction l with
  | nil => exact .refl _
  | cons b rest ih =>
      rw [place]
      split
      · exact .refl _
      · exact (ih.cons b).trans (.swap a b rest)

theorem perm_sort (le : α → α → Bool) (l : List α) : (sort le l).Perm l := by
  induction l with
  | nil => exact .refl _
  | cons a rest ih => exact (perm_place le a (sort le rest)).trans (ih.cons a)

theorem pairwise_place {le : α → α → Bool} (total : ∀ a b, le a b ∨ le b a)
    (trans : ∀ a b c, le a b → le b c → le a c) (a : α) {l : List α}
    (h : l.Pairwise (fun x y => le x y)) : (place le a l).Pairwise (fun x y => le x y) := by
  induction l with
  | nil => simp [place]
  | cons b rest ih =>
      have hb := List.pairwise_cons.1 h
      rw [place]
      split
      · rename_i hab
        refine List.pairwise_cons.2 ⟨fun c hc => ?_, h⟩
        rcases List.mem_cons.1 hc with rfl | hc
        · exact hab
        · exact trans a b c hab (hb.1 c hc)
      · rename_i hab
        refine List.pairwise_cons.2 ⟨fun c hc => ?_, ih hb.2⟩
        -- What goes in behind `b` is either the new element or was there before.
        rcases List.mem_cons.1 ((perm_place le a rest).mem_iff.1 hc) with rfl | hc
        · exact (total c b).resolve_left hab
        · exact hb.1 c hc

theorem pairwise_sort {le : α → α → Bool} (total : ∀ a b, le a b ∨ le b a)
    (trans : ∀ a b c, le a b → le b c → le a c) (l : List α) :
    (sort le l).Pairwise (fun x y => le x y) := by
  induction l with
  | nil => exact .nil
  | cons a rest ih => exact pairwise_place total trans a ih

end ApiCatalog.StableSort
