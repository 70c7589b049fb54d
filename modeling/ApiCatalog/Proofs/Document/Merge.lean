import ApiCatalog.Document
import ApiCatalog.Proofs.NameMap

namespace ApiCatalog.Group

theorem length_endpoints_merge (g later : Group) :
    (g.merge later).endpoints.length = g.endpoints.length + later.endpoints.length := by
  rw [← List.length_append]
  exact (StableSort.perm_sort Endpoint.le (g.endpoints ++ later.endpoints)).length_eq

theorem length_endpoints_addEndpoint (g : Group) (e : Endpoint) :
    (g.addEndpoint e).endpoints.length = g.endpoints.length + 1 := by
  have hperm := StableSort.perm_sort Endpoint.le
    (g.endpoints ++ [{ e with params := Param.sort e.params }])
  exact hperm.length_eq.trans (List.length_append ..)

end ApiCatalog.Group

namespace ApiCatalog.Document

theorem ext_get? {d e : Document} (h : ∀ name, d.get? name = e.get? name) : d = e := by
  obtain ⟨groups⟩ := d
  obtain ⟨groups'⟩ := e
  exact congrArg Document.mk (NameMap.ext_get? h)

theorem get?_update (d : Document) (name : String) (f : Group → Group) (other : String) :
    (d.update name f).get? other =
      if other = name then some (f ((d.get? name).getD {})) else d.get? other :=
  NameMap.get?_upsert d.groups name _ other

-- The group that comes from both sides, if it comes from the later one at all.
def joined (earlier : Option Group) : Option Group → Option Group
  | none => earlier
  | some later => some ((earlier.getD {}).merge later)

-- Names come once in a document, so each group is reached by one update only.
theorem get?_foldl_update {entries : List (String × Group)}
    (h : entries.Pairwise (fun a b => a.1 < b.1)) (d : Document) (name : String) :
    (entries.foldl (fun acc (key, group) => acc.update key (·.merge group)) d).get? name =
      joined (d.get? name) (entries.lookup name) := by
  induction entries generalizing d with
  | nil => rfl
  | cons head rest ih =>
      obtain ⟨key, group⟩ := head
      obtain ⟨hhead, hrest⟩ := List.pairwise_cons.1 h
      rw [List.foldl_cons, ih hrest, get?_update]
      by_cases hname : name = key
      · subst hname
        rw [NameMap.lookup_eq_none_of_lt hhead, List.lookup_cons_self, if_pos rfl]
        rfl
      · rw [if_neg hname, NameMap.lookup_cons_of_ne hname]

theorem get?_merge (d later : Document) (name : String) :
    (d.merge later).get? name = joined (d.get? name) (later.get? name) :=
  get?_foldl_update later.groups.sorted d name

theorem mem_groupNames_iff (d : Document) (name : String) :
    name ∈ d.groupNames ↔ (d.get? name).isSome :=
  NameMap.mem_keys_iff d.groups name

theorem endpointCount_eq_sum (d : Document) :
    d.endpointCount = (d.groups.values.map (·.endpoints.length)).sum := by
  rw [endpointCount, List.sum, List.foldr_map]

theorem endpointCount_update {f : Group → Group} {more : Nat}
    (h : ∀ g, (f g).endpoints.length = g.endpoints.length + more) (d : Document) (name : String) :
    (d.update name f).endpointCount = d.endpointCount + more := by
  rw [endpointCount_eq_sum, endpointCount_eq_sum]
  apply NameMap.sum_values_upsert
  intro old
  rw [h]
  cases old with
  | none => rfl
  | some g => rfl

theorem endpointCount_foldl_update (entries : List (String × Group)) (d : Document) :
    (entries.foldl (fun acc (name, group) => acc.update name (·.merge group)) d).endpointCount =
      d.endpointCount + (entries.map (·.2.endpoints.length)).sum := by
  induction entries generalizing d with
  | nil => rfl
  | cons head rest ih =>
      obtain ⟨name, group⟩ := head
      have hgroup : ∀ g : Group,
          (g.merge group).endpoints.length = g.endpoints.length + group.endpoints.length :=
        fun g => g.length_endpoints_merge group
      rw [List.foldl_cons, ih, endpointCount_update hgroup, List.map_cons, List.sum_cons,
        Nat.add_assoc]

theorem endpointCount_merge (d later : Document) :
    (d.merge later).endpointCount = d.endpointCount + later.endpointCount := by
  rw [merge, endpointCount_foldl_update, endpointCount_eq_sum later, NameMap.values, List.map_map]
  rfl

end ApiCatalog.Document
