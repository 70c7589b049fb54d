import ApiCatalog.Proofs.FileTree
import Mathlib.Data.String.Basic

namespace ApiCatalog.FileTree

variable {t t₁ t₂ : FileTree} {place place₁ place₂ : List String}

-- Each place is listed once, under names that a directory may hold.
structure Sound (t : FileTree) : Prop where
  names : ∀ entry ∈ t.nodes, ∀ name ∈ entry.1, Path.IsName name
  once : (t.nodes.map (·.1)).Nodup

section Files

theorem namesLe_cons_iff (a b : String) (as bs : List String) :
    namesLe (a :: as) (b :: bs) ↔ a < b ∨ a = b ∧ namesLe as bs := by
  rw [namesLe, Bool.or_eq_true, Bool.and_eq_true, decide_eq_true_iff, beq_iff_eq]

theorem namesLe_total (a b : List String) : namesLe a b ∨ namesLe b a := by
  induction a generalizing b with
  | nil => exact .inl rfl
  | cons x rest ih =>
      cases b with
      | nil => exact .inr rfl
      | cons y more =>
          rw [namesLe_cons_iff, namesLe_cons_iff]
          rcases lt_trichotomy x y with hlt | heq | hgt
          · exact .inl (.inl hlt)
          · exact (ih more).imp (fun h => .inr ⟨heq, h⟩) fun h => .inr ⟨heq.symm, h⟩
          · exact .inr (.inl hgt)

theorem namesLe_trans (a b c : List String) (hab : namesLe a b) (hbc : namesLe b c) :
    namesLe a c := by
  induction a generalizing b c with
  | nil => rfl
  | cons x rest ih =>
      cases b with
      | nil => cases hab
      | cons y more =>
          cases c with
          | nil => cases hbc
          | cons z last =>
              rw [namesLe_cons_iff] at hab hbc ⊢
              rcases hab with hxy | ⟨rfl, hrest⟩
              · rcases hbc with hyz | ⟨rfl, -⟩
                · exact .inl (hxy.trans hyz)
                · exact .inl hxy
              · rcases hbc with hyz | ⟨rfl, hmore⟩
                · exact .inl hyz
                · exact .inr ⟨rfl, ih more last hrest hmore⟩

theorem namesLe_antisymm (a b : List String) (hab : namesLe a b) (hba : namesLe b a) : a = b := by
  induction a generalizing b with
  | nil =>
      cases b with
      | nil => rfl
      | cons y more => cases hba
  | cons x rest ih =>
      cases b with
      | nil => cases hab
      | cons y more =>
          rw [namesLe_cons_iff] at hab hba
          rcases hab with hxy | ⟨rfl, hrest⟩
          · rcases hba with hyx | ⟨rfl, -⟩
            · exact absurd hyx hxy.asymm
            · exact absurd hxy (lt_irrefl _)
          · rcases hba with hyx | ⟨-, hmore⟩
            · exact absurd hyx (lt_irrefl _)
            · rw [ih more hrest hmore]

-- The names that lead on from a place to an entry that is a file.
def nameBelow? (place : List String) (entry : List String × FileNode) : Option (List String) :=
  if entry.2.isFile then (place.isPrefixOf? entry.1).filter (!·.isEmpty) else none

theorem nameBelow?_eq_some_iff (place names : List String) (entry : List String × FileNode) :
    nameBelow? place entry = some names ↔
      entry.2.isFile ∧ entry.1 = place ++ names ∧ names ≠ [] := by
  unfold nameBelow?
  by_cases hfile : entry.2.isFile
  · rw [if_pos hfile, Option.filter_eq_some_iff, List.isPrefixOf?_eq_some_iff_append_eq]
    simp only [hfile, true_and, Bool.not_eq_true', List.isEmpty_eq_false_iff]
    exact and_congr_left fun _ => eq_comm
  · simp [hfile]

theorem filesBelow_eq (t : FileTree) (place : List String) :
    t.filesBelow place = StableSort.sort namesLe (t.nodes.filterMap (nameBelow? place)) := rfl

theorem lookup_eq_some_iff_of_nodup {nodes : List (List String × FileNode)}
    (h : (nodes.map (·.1)).Nodup) (names : List String) (node : FileNode) :
    nodes.lookup names = some node ↔ (names, node) ∈ nodes := by
  induction nodes with
  | nil => simp
  | cons head rest ih =>
      obtain ⟨key, value⟩ := head
      obtain ⟨hkey, hrest⟩ := List.nodup_cons.1 h
      rw [List.lookup_cons, List.mem_cons, ← ih hrest]
      by_cases hnames : names = key
      · subst hnames
        have hnone : rest.lookup names = none := by
          rw [List.lookup_eq_none_iff]
          intro entry hentry
          have hne : names ≠ entry.1 := fun heq => hkey (List.mem_map.2 ⟨entry, hentry, heq.symm⟩)
          exact bne_iff_ne.2 hne
        simp [hnone, eq_comm]
      · have hbeq : (names == key) = false := beq_eq_false_iff_ne.2 hnames
        simp [hbeq, hnames]

theorem Sound.mem_filesBelow (h : t.Sound) (place names : List String) :
    names ∈ t.filesBelow place ↔
      names ≠ [] ∧ ∃ node, t.node? (place ++ names) = some node ∧ node.isFile := by
  rw [filesBelow_eq, (StableSort.perm_sort namesLe _).mem_iff, List.mem_filterMap]
  simp only [nameBelow?_eq_some_iff]
  constructor
  · rintro ⟨⟨key, node⟩, hmem, hfile, rfl, hne⟩
    refine ⟨hne, node, ?_, hfile⟩
    rw [node?, if_neg (by simp [hne]), lookup_eq_some_iff_of_nodup h.once]
    exact hmem
  · rintro ⟨hne, node, hnode, hfile⟩
    rw [node?, if_neg (by simp [hne]), lookup_eq_some_iff_of_nodup h.once] at hnode
    exact ⟨(place ++ names, node), hnode, hfile, rfl, hne⟩

theorem Sound.isName_of_mem_filesBelow (h : t.Sound) {names : List String}
    (hnames : names ∈ t.filesBelow place) : ∀ name ∈ names, Path.IsName name := by
  rw [filesBelow_eq, (StableSort.perm_sort namesLe _).mem_iff, List.mem_filterMap] at hnames
  obtain ⟨entry, hentry, hbelow⟩ := hnames
  obtain ⟨-, heq, -⟩ := (nameBelow?_eq_some_iff place names entry).1 hbelow
  intro name hname
  refine h.names entry hentry name ?_
  rw [heq]
  exact List.mem_append_right place hname

theorem nil_not_mem_filesBelow (t : FileTree) (place : List String) :
    [] ∉ t.filesBelow place := by
  rw [filesBelow_eq, (StableSort.perm_sort namesLe _).mem_iff, List.mem_filterMap]
  rintro ⟨entry, -, hbelow⟩
  exact ((nameBelow?_eq_some_iff place [] entry).1 hbelow).2.2 rfl

theorem pairwise_filesBelow (t : FileTree) (place : List String) :
    (t.filesBelow place).Pairwise (fun a b => namesLe a b) :=
  StableSort.pairwise_sort namesLe_total namesLe_trans _

theorem Sound.nodup_filesBelow (h : t.Sound) (place : List String) :
    (t.filesBelow place).Nodup := by
  rw [filesBelow_eq, (StableSort.perm_sort namesLe _).nodup_iff]
  have hnodes : t.nodes.Pairwise (fun a b => a.1 ≠ b.1) := List.pairwise_map.1 h.once
  refine List.pairwise_filterMap.2 (hnodes.imp fun {a b} hne x hx y hy => ?_)
  obtain ⟨-, ha, -⟩ := (nameBelow?_eq_some_iff place x a).1 hx
  obtain ⟨-, hb, -⟩ := (nameBelow?_eq_some_iff place y b).1 hy
  rintro rfl
  exact hne (ha.trans hb.symm)

end Files

section Agreement

-- The same stands below two places.
def SameBelow (t₁ t₂ : FileTree) (place₁ place₂ : List String) : Prop :=
  ∀ names, t₁.node? (place₁ ++ names) = t₂.node? (place₂ ++ names)

theorem SameBelow.append (h : SameBelow t₁ t₂ place₁ place₂) (names : List String) :
    SameBelow t₁ t₂ (place₁ ++ names) (place₂ ++ names) := by
  intro more
  rw [List.append_assoc, List.append_assoc, h]

theorem SameBelow.filesBelow (h : SameBelow t₁ t₂ place₁ place₂) (h₁ : t₁.Sound)
    (h₂ : t₂.Sound) : t₁.filesBelow place₁ = t₂.filesBelow place₂ := by
  have hmem : ∀ names, names ∈ t₁.filesBelow place₁ ↔ names ∈ t₂.filesBelow place₂ := by
    intro names
    rw [h₁.mem_filesBelow, h₂.mem_filesBelow, h names]
  have hperm := (List.perm_ext_iff_of_nodup (h₁.nodup_filesBelow place₁)
    (h₂.nodup_filesBelow place₂)).2 hmem
  exact hperm.eq_of_pairwise (fun a b _ _ => namesLe_antisymm a b)
    (pairwise_filesBelow t₁ place₁) (pairwise_filesBelow t₂ place₂)

-- A walk that is never above where it started, being `depth` levels below it.
def staysBelow : Nat → List (List Char) → Bool
  | _, [] => true
  | depth, segment :: rest =>
      if Path.isIdle segment then staysBelow depth rest
      else if segment = ['.', '.'] then
        match depth with
        | 0 => false
        | depth + 1 => staysBelow depth rest
      else staysBelow (depth + 1) rest

theorem SameBelow.move (h : SameBelow t₁ t₂ place₁ place₂) (names : List String)
    (segment : List Char) :
    (∃ fault, t₁.move (place₁ ++ names) segment = .error fault ∧
      t₂.move (place₂ ++ names) segment = .error fault) ∨
    t₁.move (place₁ ++ names) segment = .ok (moved (place₁ ++ names) segment) ∧
      t₂.move (place₂ ++ names) segment = .ok (moved (place₂ ++ names) segment) := by
  have henter : t₁.enter (place₁ ++ names) = t₂.enter (place₂ ++ names) := by
    rw [enter, enter, h names]
  unfold FileTree.move
  rw [henter]
  cases t₂.enter (place₂ ++ names) with
  | error fault => exact .inl ⟨fault, rfl, rfl⟩
  | ok u => exact .inr ⟨rfl, rfl⟩

-- Both walks stop for the same reason, or end at places that agree.
theorem SameBelow.follow (h : SameBelow t₁ t₂ place₁ place₂) {names : List String}
    {segments : List (List Char)} (hstays : staysBelow names.length segments) :
    (∃ fault, t₁.follow (place₁ ++ names) segments = .error fault ∧
      t₂.follow (place₂ ++ names) segments = .error fault) ∨
    ∃ found, t₁.follow (place₁ ++ names) segments = .ok (place₁ ++ found) ∧
      t₂.follow (place₂ ++ names) segments = .ok (place₂ ++ found) := by
  induction segments generalizing names with
  | nil => exact .inr ⟨names, rfl, rfl⟩
  | cons segment rest ih =>
      rw [follow_cons, follow_cons]
      rcases h.move names segment with ⟨fault, hmove₁, hmove₂⟩ | ⟨hmove₁, hmove₂⟩
      · rw [hmove₁, hmove₂]
        exact .inl ⟨fault, rfl, rfl⟩
      · rw [hmove₁, hmove₂]
        -- one step from either place leads to the same names below it
        have hnext : ∃ next, (∀ place : List String,
            moved (place ++ names) segment = place ++ next) ∧ staysBelow next.length rest := by
          rw [staysBelow.eq_def] at hstays
          simp only at hstays
          split at hstays
          · rename_i hidle
            exact ⟨names, fun place => moved_of_isIdle hidle, hstays⟩
          · rename_i hidle
            split at hstays
            · rename_i hup
              cases names using List.reverseRecOn with
              | nil => cases hstays
              | append_singleton front last =>
                  refine ⟨front, fun place => ?_, by simpa using hstays⟩
                  rw [moved, if_neg hidle, if_pos hup, ← List.append_assoc,
                    List.dropLast_concat]
            · rename_i hname
              refine ⟨names ++ [String.ofList segment], fun place => ?_, by simpa using hstays⟩
              rw [moved, if_neg hidle, if_neg hname, List.append_assoc]
        obtain ⟨next, hmoved, hrest⟩ := hnext
        rw [hmoved, hmoved]
        exact ih hrest

end Agreement

end ApiCatalog.FileTree
