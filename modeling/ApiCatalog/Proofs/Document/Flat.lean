import ApiCatalog.Contribution
import ApiCatalog.Proofs.Document.Merge
import ApiCatalog.Proofs.Sorting
import Mathlib.Data.List.Induction

namespace ApiCatalog

namespace Contribution

-- What a contribution says about the whole of the group with that name.
def definitionOf? (name : String) : Contribution → Option Definition
  | definition group shared => if group = name then some shared else none
  | endpoint _ _ => none

-- The endpoint that a contribution puts into the group with that name.
def endpointOf? (name : String) : Contribution → Option Endpoint
  | definition _ _ => none
  | endpoint group operation => if group = name then some operation else none

-- The endpoint that it puts anywhere.
def operation? : Contribution → Option Endpoint
  | definition _ _ => none
  | endpoint _ operation => some operation

theorem definitionOf?_eq_some_iff {c : Contribution} {name : String} {shared : Definition} :
    c.definitionOf? name = some shared ↔ c = definition name shared := by
  cases c <;> simp [definitionOf?]

theorem endpointOf?_eq_some_iff {c : Contribution} {name : String} {operation : Endpoint} :
    c.endpointOf? name = some operation ↔ c = endpoint name operation := by
  cases c <;> simp [endpointOf?]

theorem definitionOf?_of_ne {c : Contribution} {name : String} (h : c.group ≠ name) :
    c.definitionOf? name = none := by
  cases c with
  | definition group shared => exact if_neg h
  | endpoint group operation => rfl

theorem endpointOf?_of_ne {c : Contribution} {name : String} (h : c.group ≠ name) :
    c.endpointOf? name = none := by
  cases c with
  | definition group shared => rfl
  | endpoint group operation => exact if_neg h

-- What becomes of the contribution's own group.
def extend : Contribution → Group → Group
  | definition _ shared, g => g.addDefinition shared
  | endpoint _ operation, g => g.addEndpoint operation

theorem addTo_eq_update (c : Contribution) (d : Document) :
    c.addTo d = d.update c.group c.extend := by
  cases c <;> rfl

end Contribution

namespace Group

-- The first text that is not empty, or the empty one.
def firstText (texts : List String) : String := (texts.find? (· ≠ "")).getD ""

-- The group with that name, read off all contributions in one pass: nothing is
-- sorted before everything is there. Ties keep the order of the contributions.
def flat (name : String) (contributions : List Contribution) : Group :=
  let definitions := contributions.filterMap (·.definitionOf? name)
  let endpoints := contributions.filterMap (·.endpointOf? name)
  { description := String.join (definitions.map (·.description))
    url := firstText (definitions.map (·.url))
    params := (definitions.flatMap (·.params)).mergeSort fun a b => decide (a.key ≤ b.key)
    endpoints := (endpoints.map fun e =>
      { e with params := e.params.mergeSort fun a b => decide (a.key ≤ b.key) }).mergeSort
        fun a b => decide (a.key ≤ b.key) }

-- An endpoint as a group keeps it.
def kept (e : Endpoint) : Endpoint := { e with params := Param.sort e.params }

theorem flat_eq_sort (name : String) (contributions : List Contribution) :
    flat name contributions =
      { description := String.join
          ((contributions.filterMap (·.definitionOf? name)).map (·.description))
        url := firstText ((contributions.filterMap (·.definitionOf? name)).map (·.url))
        params := Param.sort
          ((contributions.filterMap (·.definitionOf? name)).flatMap (·.params))
        endpoints := Endpoint.sort
          ((contributions.filterMap (·.endpointOf? name)).map kept) } := by
  have hparams : ∀ params : List Param,
      params.mergeSort (fun a b => decide (a.key ≤ b.key)) = Param.sort params :=
    fun params => (StableSort.sort_eq_mergeSort_key Param.le_eq_key params).symm
  have hendpoints : ∀ endpoints : List Endpoint,
      endpoints.mergeSort (fun a b => decide (a.key ≤ b.key)) = Endpoint.sort endpoints :=
    fun endpoints => (StableSort.sort_eq_mergeSort_key Endpoint.le_eq_key endpoints).symm
  simp only [flat, hparams, hendpoints]
  rfl

theorem firstText_append (l r : List String) :
    firstText (l ++ r) = firstUrl (firstText l) (firstText r) := by
  unfold firstText firstUrl
  rw [List.find?_append]
  cases hfind : l.find? (· ≠ "") with
  | none => simp
  | some text =>
      have htext : text ≠ "" := by simpa using List.find?_some hfind
      simp [htext]

theorem firstText_singleton (text : String) : firstText [text] = text := by
  by_cases h : text = "" <;> simp [firstText, h]

-- The shares of two runs of contributions make up the share of both.
theorem flat_append (name : String) (cs ds : List Contribution) :
    flat name (cs ++ ds) = (flat name cs).merge (flat name ds) := by
  simp only [flat_eq_sort, merge, List.filterMap_append, List.map_append, List.flatMap_append,
    String.join_append, firstText_append, Param.sort_sort_append_sort,
    Endpoint.sort_sort_append_sort]

-- One more contribution sorts the list it adds to; the other list is in order already.
theorem flat_append_singleton (cs : List Contribution) (c : Contribution) :
    flat c.group (cs ++ [c]) = c.extend (flat c.group cs) := by
  cases c with
  | definition group shared =>
      simp [flat_eq_sort, Contribution.extend, addDefinition, Contribution.definitionOf?,
        Contribution.endpointOf?, Contribution.group, String.join_append, firstText_append,
        firstText_singleton, Param.sort_sort_append]
  | endpoint group operation =>
      simp [flat_eq_sort, Contribution.extend, addEndpoint, Contribution.definitionOf?,
        Contribution.endpointOf?, Contribution.group, kept, Endpoint.sort_sort_append]

theorem flat_append_of_not_mem {name : String} {ds : List Contribution}
    (h : ∀ c ∈ ds, c.group ≠ name) (cs : List Contribution) :
    flat name (cs ++ ds) = flat name cs := by
  have hdefinitions : ds.filterMap (·.definitionOf? name) = [] :=
    List.filterMap_eq_nil_iff.2 fun c hc => Contribution.definitionOf?_of_ne (h c hc)
  have hendpoints : ds.filterMap (·.endpointOf? name) = [] :=
    List.filterMap_eq_nil_iff.2 fun c hc => Contribution.endpointOf?_of_ne (h c hc)
  simp [flat, List.filterMap_append, hdefinitions, hendpoints]

theorem flat_nil (name : String) : flat name [] = {} := by
  simp [flat, firstText]

end Group

namespace Document

-- A group is there if and only if some contribution mentions it.
def flatGet? (name : String) (cs : List Contribution) : Option Group :=
  if ∃ c ∈ cs, c.group = name then some (Group.flat name cs) else none

theorem flatGet?_of_mem {name : String} {cs : List Contribution} {c : Contribution}
    (hc : c ∈ cs) (hname : c.group = name) : flatGet? name cs = some (Group.flat name cs) :=
  if_pos ⟨c, hc, hname⟩

theorem flatGet?_append_of_not_mem {name : String} {ds : List Contribution}
    (h : ∀ c ∈ ds, c.group ≠ name) (cs : List Contribution) :
    flatGet? name (cs ++ ds) = flatGet? name cs := by
  have hmem : (∃ c ∈ cs ++ ds, c.group = name) ↔ ∃ c ∈ cs, c.group = name := by
    constructor
    · rintro ⟨c, hc, hname⟩
      exact ⟨c, (List.mem_append.1 hc).resolve_right fun hd => h c hd hname, hname⟩
    · rintro ⟨c, hc, hname⟩
      exact ⟨c, List.mem_append_left ds hc, hname⟩
  simp only [flatGet?, hmem, Group.flat_append_of_not_mem h]

-- An absent group counts as an empty one, which is what its contributions make of it.
theorem getD_flatGet? (name : String) (cs : List Contribution) :
    (flatGet? name cs).getD {} = Group.flat name cs := by
  by_cases h : ∃ c ∈ cs, c.group = name
  · obtain ⟨c, hc, hname⟩ := h
    rw [flatGet?_of_mem hc hname]
    rfl
  · have hnot : ∀ c ∈ cs, c.group ≠ name := fun c hc heq => h ⟨c, hc, heq⟩
    have hflat := Group.flat_append_of_not_mem hnot []
    rw [List.nil_append, Group.flat_nil] at hflat
    rw [flatGet?, if_neg h, hflat]
    rfl

-- The document holds these contributions and nothing else.
def Holds (d : Document) (cs : List Contribution) : Prop :=
  ∀ name, d.get? name = flatGet? name cs

theorem Holds.unique {d e : Document} {cs : List Contribution} (hd : d.Holds cs)
    (he : e.Holds cs) : d = e :=
  ext_get? fun name => (hd name).trans (he name).symm

theorem holds_empty : Holds {} [] := by
  intro name
  simp [flatGet?, get?]

-- One more contribution changes its own group and leaves the others alone.
theorem Holds.addTo {d : Document} {cs : List Contribution} (h : d.Holds cs)
    (c : Contribution) : (c.addTo d).Holds (cs ++ [c]) := by
  intro name
  rw [Contribution.addTo_eq_update, get?_update]
  by_cases hname : name = c.group
  · subst hname
    rw [if_pos rfl, h c.group, getD_flatGet?, ← Group.flat_append_singleton,
      flatGet?_of_mem (by simp) rfl]
  · have hne : ∀ x ∈ [c], x.group ≠ name := by
      simpa using fun heq : c.group = name => hname heq.symm
    rw [if_neg hname, h name, flatGet?_append_of_not_mem hne]

theorem holds_ofContributions (cs : List Contribution) : (ofContributions cs).Holds cs := by
  induction cs using List.reverseRecOn with
  | nil => exact holds_empty
  | append_singleton cs c ih =>
      rw [ofContributions, List.foldl_append]
      exact ih.addTo c

theorem Holds.mem_groupNames_iff {d : Document} {cs : List Contribution} (h : d.Holds cs)
    (name : String) : name ∈ d.groupNames ↔ ∃ c ∈ cs, c.group = name := by
  rw [Document.mem_groupNames_iff, h name, flatGet?]
  split
  · rename_i hmem
    simpa using hmem
  · rename_i hmem
    simpa using hmem

theorem Holds.eq_flat {d : Document} {cs : List Contribution} (h : d.Holds cs) {name : String}
    {g : Group} (hg : d.get? name = some g) : g = Group.flat name cs := by
  rw [h name, flatGet?] at hg
  split at hg
  · exact (Option.some.inj hg).symm
  · cases hg

theorem endpointCount_ofContributions (cs : List Contribution) :
    (ofContributions cs).endpointCount = (cs.filterMap (·.operation?)).length := by
  induction cs using List.reverseRecOn with
  | nil => rfl
  | append_singleton cs c ih =>
      rw [ofContributions, List.foldl_append, ← ofContributions, List.filterMap_append,
        List.length_append, ← ih]
      cases c with
      | definition name shared =>
          have hshared : ∀ g : Group,
              (g.addDefinition shared).endpoints.length = g.endpoints.length + 0 := fun g => rfl
          exact endpointCount_update hshared _ name
      | endpoint name operation =>
          exact endpointCount_update (·.length_endpoints_addEndpoint operation) _ name

-- Merging the shares of two runs is holding both runs, one after the other.
theorem Holds.merge {d e : Document} {cs ds : List Contribution} (hd : d.Holds cs)
    (he : e.Holds ds) : (d.merge e).Holds (cs ++ ds) := by
  intro name
  rw [get?_merge, hd name, he name]
  by_cases hds : ∃ c ∈ ds, c.group = name
  · obtain ⟨c, hc, hname⟩ := hds
    rw [flatGet?_of_mem hc hname, joined, getD_flatGet?, ← Group.flat_append,
      flatGet?_of_mem (List.mem_append_right cs hc) hname]
  · -- the later document has no such group, so the earlier one is left as it is
    have hnot : ∀ c ∈ ds, c.group ≠ name := fun c hc heq => hds ⟨c, hc, heq⟩
    rw [flatGet?_append_of_not_mem hnot, flatGet?, flatGet?, if_neg hds, joined]

end Document

end ApiCatalog
