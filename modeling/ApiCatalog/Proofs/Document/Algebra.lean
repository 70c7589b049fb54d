import ApiCatalog.Proofs.Document.Merge
import ApiCatalog.Proofs.Sorting

namespace ApiCatalog

namespace Group

-- Both lists of the group stand in the order of their keys.
structure Ordered (g : Group) : Prop where
  params : g.params.Pairwise (fun a b => a.key ≤ b.key)
  endpoints : g.endpoints.Pairwise (fun a b => a.key ≤ b.key)

theorem ordered_empty : Ordered {} where
  params := .nil
  endpoints := .nil

-- Merging sorts, whatever the two groups were like.
theorem ordered_merge (g later : Group) : (g.merge later).Ordered where
  params := StableSort.pairwise_sort_key Param.le_eq_key (g.params ++ later.params)
  endpoints := StableSort.pairwise_sort_key Endpoint.le_eq_key (g.endpoints ++ later.endpoints)

theorem firstUrl_assoc (a b c : String) :
    firstUrl (firstUrl a b) c = firstUrl a (firstUrl b c) := by
  by_cases ha : a = ""
  · simp [firstUrl, ha]
  · simp [firstUrl, ha]

-- Each side sorts one half first, and neither sort is seen in the whole.
theorem merge_assoc (g h k : Group) : (g.merge h).merge k = g.merge (h.merge k) := by
  have hparams : Param.sort (Param.sort (g.params ++ h.params) ++ k.params) =
      Param.sort (g.params ++ Param.sort (h.params ++ k.params)) := by
    rw [Param.sort_sort_append, Param.sort_append_sort, List.append_assoc]
  have hendpoints : Endpoint.sort (Endpoint.sort (g.endpoints ++ h.endpoints) ++ k.endpoints) =
      Endpoint.sort (g.endpoints ++ Endpoint.sort (h.endpoints ++ k.endpoints)) := by
    rw [Endpoint.sort_sort_append, Endpoint.sort_append_sort, List.append_assoc]
  simp only [merge, String.append_assoc, firstUrl_assoc, hparams, hendpoints]

-- An empty group in front of another sorts it, and does nothing else to it.
theorem empty_merge (g : Group) : ({} : Group).merge g =
    { g with params := Param.sort g.params, endpoints := Endpoint.sort g.endpoints } := by
  simp [merge, firstUrl]

theorem merge_empty_merge (g h : Group) : g.merge (({} : Group).merge h) = g.merge h := by
  rw [empty_merge]
  simp [merge, Param.sort_append_sort, Endpoint.sort_append_sort]

theorem empty_merge_eq_self_iff (g : Group) : ({} : Group).merge g = g ↔ g.Ordered := by
  rw [empty_merge]
  constructor
  · intro h
    have hparams : Param.sort g.params = g.params := congrArg Group.params h
    have hendpoints : Endpoint.sort g.endpoints = g.endpoints := congrArg Group.endpoints h
    exact ⟨(StableSort.sort_eq_self_iff_key Param.le_eq_key g.params).1 hparams,
      (StableSort.sort_eq_self_iff_key Endpoint.le_eq_key g.endpoints).1 hendpoints⟩
  · intro h
    have hparams : Param.sort g.params = g.params :=
      (StableSort.sort_eq_self_iff_key Param.le_eq_key g.params).2 h.params
    have hendpoints : Endpoint.sort g.endpoints = g.endpoints :=
      (StableSort.sort_eq_self_iff_key Endpoint.le_eq_key g.endpoints).2 h.endpoints
    rw [hparams, hendpoints]

end Group

namespace Document

-- A group may come from any of three documents; only where it comes from a
-- later one is anything sorted.
theorem joined_assoc (a b c : Option Group) :
    joined (joined a b) c = joined a (joined b c) := by
  cases c with
  | none => rfl
  | some later =>
      cases b with
      | none => simp [joined, Group.merge_empty_merge]
      | some middle => simp [joined, Group.merge_assoc]

theorem merge_assoc (a b c : Document) : (a.merge b).merge c = a.merge (b.merge c) := by
  apply ext_get?
  intro name
  simp only [get?_merge, joined_assoc]

theorem merge_empty (d : Document) : d.merge empty = d := rfl

theorem get?_empty (name : String) : empty.get? name = none := rfl

theorem empty_merge_eq_self_iff (d : Document) :
    empty.merge d = d ↔ ∀ name g, d.get? name = some g → g.Ordered := by
  have hget : ∀ name, (empty.merge d).get? name = joined none (d.get? name) := by
    intro name
    rw [get?_merge, get?_empty]
  constructor
  · intro h name g hg
    rw [h] at hget
    have hjoined := hget name
    rw [hg] at hjoined
    exact (Group.empty_merge_eq_self_iff g).1 (Option.some.inj hjoined).symm
  · intro h
    apply ext_get?
    intro name
    rw [hget]
    cases hg : d.get? name with
    | none => rfl
    | some g => exact congrArg some ((Group.empty_merge_eq_self_iff g).2 (h name g hg))

-- Merging is associative for sorted and unsorted documents alike. Nothing
-- changes when the empty document comes later; in front it sorts, which goes
-- unnoticed exactly where all groups are in order.
theorem merge_assoc_and_units :
    (∀ a b c : Document, (a.merge b).merge c = a.merge (b.merge c)) ∧
    (∀ d : Document, d.merge empty = d) ∧
    ∀ d : Document, empty.merge d = d ↔ ∀ name g, d.get? name = some g → g.Ordered :=
  ⟨merge_assoc, merge_empty, empty_merge_eq_self_iff⟩

end Document

end ApiCatalog
