import ApiCatalog.Endpoint
import Mathlib.Data.Prod.Lex
import Mathlib.Data.String.Basic

namespace ApiCatalog.StableSort

variable {α : Type} {le : α → α → Bool}

theorem place_eq_cons {a : α} {l : List α} (h : ∀ b ∈ l, le a b) : place le a l = a :: l := by
  cases l with
  | nil => rfl
  | cons b rest => simp [place, h b (by simp)]

-- A list in order stays as it is, so a second sort changes nothing.
theorem sort_eq_self {l : List α} (h : l.Pairwise (fun x y => le x y)) : sort le l = l := by
  induction l with
  | nil => rfl
  | cons a rest ih =>
      obtain ⟨ha, hrest⟩ := List.pairwise_cons.1 h
      rw [sort, ih hrest, place_eq_cons ha]

-- Elements of different rank go in in any order.
theorem place_comm (trans : ∀ a b c, le a b → le b c → le a c) {a b : α}
    (hba : le b a) (hab : ¬ le a b) (l : List α) :
    place le a (place le b l) = place le b (place le a l) := by
  induction l with
  | nil => simp [place, hba, hab]
  | cons c rest ih =>
      by_cases hac : le a c
      · -- then `b` may precede `c` as well
        have hbc : le b c := trans b a c hba hac
        simp [place, hac, hbc, hba, hab]
      · by_cases hbc : le b c
        · simp [place, hac, hbc, hab]
        · simp [place, hac, hbc, ih]

-- Where an element already stands in a list does not matter to a later sort,
-- as long as it has not passed one of its own rank.
theorem sort_place_append (total : ∀ a b, le a b ∨ le b a)
    (trans : ∀ a b c, le a b → le b c → le a c) (a : α) (l r : List α) :
    sort le (place le a l ++ r) = place le a (sort le (l ++ r)) := by
  induction l with
  | nil => rfl
  | cons b rest ih =>
      by_cases hab : le a b
      · simp [place, hab, sort]
      · have hba : le b a := (total a b).resolve_left hab
        calc sort le (place le a (b :: rest) ++ r)
          _ = place le b (sort le (place le a rest ++ r)) := by simp [place, hab, sort]
          _ = place le b (place le a (sort le (rest ++ r))) := by rw [ih]
          _ = place le a (place le b (sort le (rest ++ r))) := (place_comm trans hba hab _).symm
          _ = place le a (sort le (b :: rest ++ r)) := rfl

theorem sort_sort_append (total : ∀ a b, le a b ∨ le b a)
    (trans : ∀ a b c, le a b → le b c → le a c) (l r : List α) :
    sort le (sort le l ++ r) = sort le (l ++ r) := by
  induction l with
  | nil => rfl
  | cons a rest ih => rw [sort, sort_place_append total trans, ih, List.cons_append, sort]

theorem sort_append_sort (total : ∀ a b, le a b ∨ le b a)
    (trans : ∀ a b c, le a b → le b c → le a c) (l r : List α) :
    sort le (l ++ sort le r) = sort le (l ++ r) := by
  induction l with
  | nil => exact sort_eq_self (pairwise_sort total trans r)
  | cons a rest ih => rw [List.cons_append, sort, ih, List.cons_append, sort]

-- Sorting parts first and then the whole is sorting once.
theorem sort_sort_append_sort (total : ∀ a b, le a b ∨ le b a)
    (trans : ∀ a b c, le a b → le b c → le a c) (l r : List α) :
    sort le (sort le l ++ sort le r) = sort le (l ++ r) := by
  rw [sort_sort_append total trans, sort_append_sort total trans]

-- An element goes in behind any run in which nothing has its rank.
theorem place_sort_append (total : ∀ a b, le a b ∨ le b a)
    (trans : ∀ a b c, le a b → le b c → le a c) {a : α} {l : List α}
    (h : ∀ b ∈ l, ¬ (le a b ∧ le b a)) (r : List α) :
    place le a (sort le (l ++ r)) = sort le (l ++ a :: r) := by
  induction l with
  | nil => rfl
  | cons b rest ih =>
      have hrest := ih fun c hc => h c (List.mem_cons_of_mem b hc)
      have hb := h b (by simp)
      have hcomm : place le a (place le b (sort le (rest ++ r))) =
          place le b (place le a (sort le (rest ++ r))) := by
        rcases total a b with hab | hba
        · exact (place_comm trans hab (fun hba => hb ⟨hab, hba⟩) _).symm
        · exact place_comm trans hba (fun hab => hb ⟨hab, hba⟩) _
      rw [List.cons_append, sort, hcomm, hrest, List.cons_append, sort]

-- Two runs that share no rank may change places.
theorem sort_append_left_comm (total : ∀ a b, le a b ∨ le b a)
    (trans : ∀ a b c, le a b → le b c → le a c) {l r : List α}
    (h : ∀ a ∈ l, ∀ b ∈ r, ¬ (le a b ∧ le b a)) (rest : List α) :
    sort le (l ++ (r ++ rest)) = sort le (r ++ (l ++ rest)) := by
  induction l with
  | nil => rfl
  | cons a l ih =>
      have hl := ih fun b hb => h b (List.mem_cons_of_mem a hb)
      rw [List.cons_append, sort, hl, place_sort_append total trans (h a (by simp)),
        List.cons_append]

theorem place_append_cons {a : α} {front back : List α} (hfront : ∀ b ∈ front, ¬ le a b)
    (hback : ∀ b ∈ back, le a b) : place le a (front ++ back) = front ++ a :: back := by
  induction front with
  | nil => exact place_eq_cons hback
  | cons b rest ih =>
      have hab : ¬ le a b := hfront b (by simp)
      have hrest : ∀ c ∈ rest, ¬ le a c := fun c hc => hfront c (List.mem_cons_of_mem b hc)
      simp [place, hab, ih hrest]

-- The library's merge sort is stable, and there is only one stable sort.
theorem sort_eq_mergeSort (total : ∀ a b, le a b ∨ le b a)
    (trans : ∀ a b c, le a b → le b c → le a c) (l : List α) :
    sort le l = l.mergeSort le := by
  have total' : ∀ a b, (le a b || le b a) = true := by simpa using total
  induction l with
  | nil => simp [sort]
  | cons a rest ih =>
      obtain ⟨front, back, hwhole, hpart, hfront⟩ := List.mergeSort_cons trans total' a rest
      have hsorted := List.pairwise_mergeSort trans total' (a :: rest)
      rw [hwhole] at hsorted
      have hback : ∀ b ∈ back, le a b :=
        (List.pairwise_cons.1 (List.pairwise_append.1 hsorted).2.1).1
      rw [sort, ih, hpart, hwhole]
      exact place_append_cons (by simpa using hfront) hback

-- An order read off a key has all that the laws above ask for.
section Key

variable {κ : Type} [LinearOrder κ] {key : α → κ}

theorem total_of_key (hkey : ∀ a b, le a b = decide (key a ≤ key b)) (a b : α) :
    le a b ∨ le b a := by
  simpa [hkey] using le_total (key a) (key b)

theorem trans_of_key (hkey : ∀ a b, le a b = decide (key a ≤ key b)) (a b c : α)
    (hab : le a b) (hbc : le b c) : le a c := by
  simp only [hkey, decide_eq_true_eq] at hab hbc ⊢
  exact hab.trans hbc

theorem sort_eq_mergeSort_key (hkey : ∀ a b, le a b = decide (key a ≤ key b)) (l : List α) :
    sort le l = l.mergeSort fun a b => decide (key a ≤ key b) := by
  have hle : le = fun a b => decide (key a ≤ key b) := funext fun a => funext (hkey a)
  rw [sort_eq_mergeSort (total_of_key hkey) (trans_of_key hkey), hle]

theorem pairwise_sort_key (hkey : ∀ a b, le a b = decide (key a ≤ key b)) (l : List α) :
    (sort le l).Pairwise (fun a b => key a ≤ key b) := by
  have hsorted := pairwise_sort (total_of_key hkey) (trans_of_key hkey) l
  simpa [hkey] using hsorted

-- Only a list in order comes back as it is.
theorem sort_eq_self_iff_key (hkey : ∀ a b, le a b = decide (key a ≤ key b)) (l : List α) :
    sort le l = l ↔ l.Pairwise (fun a b => key a ≤ key b) := by
  constructor
  · intro h
    rw [← h]
    exact pairwise_sort_key hkey l
  · intro h
    exact sort_eq_self (by simpa [hkey] using h)

-- Parts that share no key may be taken in any order.
theorem sort_flatMap_of_perm (hkey : ∀ a b, le a b = decide (key a ≤ key b)) {ι : Type}
    {part : ι → List α} {xs ys : List ι} (hperm : xs.Perm ys)
    (h : xs.Pairwise fun x y => ∀ a ∈ part x, ∀ b ∈ part y, key a ≠ key b) :
    sort le (xs.flatMap part) = sort le (ys.flatMap part) := by
  have total := total_of_key hkey
  have trans := trans_of_key hkey
  induction hperm with
  | nil => rfl
  | cons x _ ih =>
      rw [List.flatMap_cons, List.flatMap_cons, ← sort_append_sort total trans,
        ih (List.pairwise_cons.1 h).2, sort_append_sort total trans]
  | swap x y rest =>
      have hne : ∀ a ∈ part y, ∀ b ∈ part x, ¬ (le a b ∧ le b a) := by
        intro a ha b hb hboth
        simp only [hkey, decide_eq_true_eq] at hboth
        exact (List.pairwise_cons.1 h).1 x (by simp) a ha b hb (le_antisymm hboth.1 hboth.2)
      simp only [List.flatMap_cons]
      exact sort_append_left_comm total trans hne _
  | trans hxs _ ihx ihy =>
      have hys := hxs.pairwise h fun hxy b hb a ha => (hxy a ha b hb).symm
      rw [ihx h, ihy hys]

end Key

end ApiCatalog.StableSort

namespace ApiCatalog.Param

-- What parameters are sorted by.
def key (p : Param) : Nat ×ₗ String := toLex (p.kind.rank, p.field)

theorem le_eq_key (a b : Param) : le a b = decide (a.key ≤ b.key) := by
  rw [Bool.eq_iff_iff]
  simp [le, key, Prod.Lex.toLex_le_toLex]

theorem sort_sort_append_sort (l r : List Param) : sort (sort l ++ sort r) = sort (l ++ r) :=
  StableSort.sort_sort_append_sort (StableSort.total_of_key le_eq_key)
    (StableSort.trans_of_key le_eq_key) l r

theorem sort_sort_append (l r : List Param) : sort (sort l ++ r) = sort (l ++ r) :=
  StableSort.sort_sort_append (StableSort.total_of_key le_eq_key)
    (StableSort.trans_of_key le_eq_key) l r

theorem sort_append_sort (l r : List Param) : sort (l ++ sort r) = sort (l ++ r) :=
  StableSort.sort_append_sort (StableSort.total_of_key le_eq_key)
    (StableSort.trans_of_key le_eq_key) l r

end ApiCatalog.Param

namespace ApiCatalog.Endpoint

-- What endpoints are sorted by.
def key (e : Endpoint) : String ×ₗ Nat := toLex (e.src, e.method.rank)

theorem le_eq_key (a b : Endpoint) : le a b = decide (a.key ≤ b.key) := by
  rw [Bool.eq_iff_iff]
  simp [le, key, Prod.Lex.toLex_le_toLex]

theorem sort_sort_append_sort (l r : List Endpoint) : sort (sort l ++ sort r) = sort (l ++ r) :=
  StableSort.sort_sort_append_sort (StableSort.total_of_key le_eq_key)
    (StableSort.trans_of_key le_eq_key) l r

theorem sort_sort_append (l r : List Endpoint) : sort (sort l ++ r) = sort (l ++ r) :=
  StableSort.sort_sort_append (StableSort.total_of_key le_eq_key)
    (StableSort.trans_of_key le_eq_key) l r

theorem sort_append_sort (l r : List Endpoint) : sort (l ++ sort r) = sort (l ++ r) :=
  StableSort.sort_append_sort (StableSort.total_of_key le_eq_key)
    (StableSort.trans_of_key le_eq_key) l r

end ApiCatalog.Endpoint
