import ApiCatalog.Proofs.Document.Algebra
import Mathlib.Data.List.Induction

namespace ApiCatalog

-- One way in which a catalog comes to be what it is.
inductive Edit where
  | touch (name : String)
  | addDefinition (name : String) (shared : Definition)
  | addEndpoint (name : String) (operation : Endpoint)
  | merge (later : Document)

namespace Edit

def apply (d : Document) : Edit → Document
  | touch name => d.touch name
  | addDefinition name shared => d.addDefinition name shared
  | addEndpoint name operation => d.addEndpoint name operation
  | merge later => d.merge later

-- The groups that an edit names.
def names : Edit → List String
  | touch name => [name]
  | addDefinition name _ => [name]
  | addEndpoint name _ => [name]
  | merge later => later.groupNames

-- The parameters that an edit brings to the group with that name.
def paramsTo (name : String) : Edit → List Param
  | touch _ => []
  | addDefinition group shared => if group = name then shared.params else []
  | addEndpoint _ _ => []
  | merge later => ((later.get? name).getD {}).params

-- The endpoints that it brings there: a single one with its parameters in
-- order, those of a document as they are.
def endpointsTo (name : String) : Edit → List Endpoint
  | touch _ => []
  | addDefinition _ _ => []
  | addEndpoint group operation =>
      if group = name then
        [{ operation with
          params := operation.params.mergeSort fun a b => decide (a.key ≤ b.key) }]
      else
        []
  | merge later => ((later.get? name).getD {}).endpoints

def endpointCount : Edit → Nat
  | touch _ => 0
  | addDefinition _ _ => 0
  | addEndpoint _ _ => 1
  | merge later => later.endpointCount

-- What an edit makes of a group that it names.
def revise (name : String) (g : Group) : Edit → Group
  | touch _ => g
  | addDefinition _ shared => g.addDefinition shared
  | addEndpoint _ operation => g.addEndpoint operation
  | merge later => g.merge ((later.get? name).getD {})

-- An edit revises the groups it names and leaves all others alone.
theorem get?_apply (e : Edit) (d : Document) (name : String) :
    (e.apply d).get? name =
      if name ∈ e.names then some (e.revise name ((d.get? name).getD {})) else d.get? name := by
  have hupdate : ∀ (key : String) (f : Group → Group),
      (d.update key f).get? name =
        if name ∈ [key] then some (f ((d.get? name).getD {})) else d.get? name := by
    intro key f
    rw [Document.get?_update]
    by_cases hname : name = key
    · simp [hname]
    · simp [hname]
  cases e with
  | touch key => exact hupdate key id
  | addDefinition key shared => exact hupdate key _
  | addEndpoint key operation => exact hupdate key _
  | merge later =>
      simp only [apply, names, revise, Document.get?_merge, Document.mem_groupNames_iff]
      cases later.get? name with
      | none => rfl
      | some group => rfl

theorem paramsTo_of_not_mem {e : Edit} {name : String} (h : name ∉ e.names) :
    e.paramsTo name = [] := by
  cases e with
  | touch key => rfl
  | addDefinition key shared =>
      exact if_neg fun heq => h (by simp [names, heq])
  | addEndpoint key operation => rfl
  | merge later =>
      have hnone : later.get? name = none := by
        simpa [names, Document.mem_groupNames_iff] using h
      simp [paramsTo, hnone]

theorem endpointsTo_of_not_mem {e : Edit} {name : String} (h : name ∉ e.names) :
    e.endpointsTo name = [] := by
  cases e with
  | touch key => rfl
  | addDefinition key shared => rfl
  | addEndpoint key operation =>
      exact if_neg fun heq => h (by simp [names, heq])
  | merge later =>
      have hnone : later.get? name = none := by
        simpa [names, Document.mem_groupNames_iff] using h
      simp [endpointsTo, hnone]

-- Each edit sorts the lists that it adds to.
theorem ordered_revise (e : Edit) (name : String) {g : Group} (h : g.Ordered) :
    (e.revise name g).Ordered := by
  cases e with
  | touch key => exact h
  | addDefinition key shared =>
      exact ⟨StableSort.pairwise_sort_key Param.le_eq_key _, h.endpoints⟩
  | addEndpoint key operation =>
      exact ⟨h.params, StableSort.pairwise_sort_key Endpoint.le_eq_key _⟩
  | merge later => exact g.ordered_merge _

theorem perm_params_revise {e : Edit} {name : String} (h : name ∈ e.names) (g : Group) :
    (e.revise name g).params.Perm (g.params ++ e.paramsTo name) := by
  cases e with
  | touch key => simp [revise, paramsTo]
  | addDefinition key shared =>
      obtain rfl : name = key := by simpa [names] using h
      rw [paramsTo, if_pos rfl]
      exact StableSort.perm_sort Param.le _
  | addEndpoint key operation => simp [revise, paramsTo, Group.addEndpoint]
  | merge later => exact StableSort.perm_sort Param.le _

theorem perm_endpoints_revise {e : Edit} {name : String} (h : name ∈ e.names) (g : Group) :
    (e.revise name g).endpoints.Perm (g.endpoints ++ e.endpointsTo name) := by
  cases e with
  | touch key => simp [revise, endpointsTo]
  | addDefinition key shared => simp [revise, endpointsTo, Group.addDefinition]
  | addEndpoint key operation =>
      obtain rfl : name = key := by simpa [names] using h
      have hparams := StableSort.sort_eq_mergeSort_key Param.le_eq_key operation.params
      rw [endpointsTo, if_pos rfl, ← hparams]
      exact StableSort.perm_sort Endpoint.le _
  | merge later => exact StableSort.perm_sort Endpoint.le _

theorem endpointCount_apply (e : Edit) (d : Document) :
    (e.apply d).endpointCount = d.endpointCount + e.endpointCount := by
  cases e with
  | touch key => exact Document.endpointCount_update (fun g => rfl) d key
  | addDefinition key shared => exact Document.endpointCount_update (fun g => rfl) d key
  | addEndpoint key operation =>
      exact Document.endpointCount_update (·.length_endpoints_addEndpoint operation) d key
  | merge later => exact d.endpointCount_merge later

end Edit

namespace Document

-- The document that a run of edits makes of the empty one.
def ofEdits (edits : List Edit) : Document := edits.foldl (fun d e => e.apply d) empty

-- Each group is in order and holds what the edits brought to it, the absent
-- groups being empty; nothing is counted that was not brought, and no group
-- is there that was not named.
structure Collects (d : Document) (edits : List Edit) : Prop where
  ordered : ∀ name, ((d.get? name).getD {}).Ordered
  params : ∀ name, ((d.get? name).getD {}).params.Perm (edits.flatMap (·.paramsTo name))
  endpoints : ∀ name, ((d.get? name).getD {}).endpoints.Perm (edits.flatMap (·.endpointsTo name))
  count : d.endpointCount = (edits.map (·.endpointCount)).sum
  names : ∀ name, name ∈ d.groupNames ↔ ∃ e ∈ edits, name ∈ e.names

theorem collects_empty : Collects empty [] where
  ordered _ := Group.ordered_empty
  params _ := .nil
  endpoints _ := .nil
  count := rfl
  names name := by simp [mem_groupNames_iff, get?_empty]

theorem Collects.apply {d : Document} {edits : List Edit} (h : d.Collects edits) (e : Edit) :
    (e.apply d).Collects (edits ++ [e]) := by
  have hget : ∀ name, ((e.apply d).get? name).getD {} =
      if name ∈ e.names then e.revise name ((d.get? name).getD {})
      else (d.get? name).getD {} := by
    intro name
    rw [e.get?_apply]
    split <;> rfl
  constructor
  · intro name
    rw [hget]
    split
    · exact e.ordered_revise name (h.ordered name)
    · exact h.ordered name
  · intro name
    rw [hget, List.flatMap_append, List.flatMap_singleton]
    split
    · rename_i hname
      exact (Edit.perm_params_revise hname _).trans ((h.params name).append_right _)
    · rename_i hname
      rw [Edit.paramsTo_of_not_mem hname, List.append_nil]
      exact h.params name
  · intro name
    rw [hget, List.flatMap_append, List.flatMap_singleton]
    split
    · rename_i hname
      exact (Edit.perm_endpoints_revise hname _).trans ((h.endpoints name).append_right _)
    · rename_i hname
      rw [Edit.endpointsTo_of_not_mem hname, List.append_nil]
      exact h.endpoints name
  · rw [e.endpointCount_apply, h.count]
    simp
  · intro name
    have hd := h.names name
    rw [mem_groupNames_iff] at hd ⊢
    rw [e.get?_apply]
    by_cases hname : name ∈ e.names
    · simp [hname]
    · simp [hname, hd]

theorem collects_ofEdits (edits : List Edit) : (ofEdits edits).Collects edits := by
  induction edits using List.reverseRecOn with
  | nil => exact collects_empty
  | append_singleton edits e ih =>
      rw [ofEdits, List.foldl_append]
      exact ih.apply e

-- Whatever is done to a catalog that begins empty, its groups stay in order
-- and nothing is lost or counted twice, though a merged document may itself be
-- in no order.
theorem ofEdits_ordered_and_conserved (edits : List Edit) :
    (∀ name g, (ofEdits edits).get? name = some g →
      g.params.Pairwise (fun a b => a.key ≤ b.key) ∧
      g.endpoints.Pairwise (fun a b => a.key ≤ b.key) ∧
      g.params.Perm (edits.flatMap (·.paramsTo name)) ∧
      g.endpoints.Perm (edits.flatMap (·.endpointsTo name))) ∧
    (ofEdits edits).endpointCount = (edits.map (·.endpointCount)).sum ∧
    ∀ name, name ∈ (ofEdits edits).groupNames ↔ ∃ e ∈ edits, name ∈ e.names := by
  have h := collects_ofEdits edits
  refine ⟨?_, h.count, h.names⟩
  intro name g hg
  have hgroup : ((ofEdits edits).get? name).getD {} = g := by rw [hg]; rfl
  have hordered := h.ordered name
  have hparams := h.params name
  have hendpoints := h.endpoints name
  rw [hgroup] at hordered hparams hendpoints
  exact ⟨hordered.params, hordered.endpoints, hparams, hendpoints⟩

end Document

end ApiCatalog
