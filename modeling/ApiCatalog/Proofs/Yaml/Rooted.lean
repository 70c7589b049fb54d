import ApiCatalog.Proofs.Yaml.Collections

namespace ApiCatalog.Yaml.Scanner

variable {base : List Token} {text : String} {s s' : Scanner}

-- Some tokens are settled, and the one behind them is not what starts an item
-- that reads as `text`. Whatever turns out to be a key stands behind them.
structure Rooted (base : List Token) (text : String) (s : Scanner) : Prop where
  strange : ∃ t, Node.Strange text t ∧ (t :: base) <:+ s.tokens
  behind : ∀ k, some k ∈ s.candidates → base.length ≤ k.position

theorem Rooted.length_lt (h : Rooted base text s) : base.length < s.tokens.length := by
  obtain ⟨t, -, hsuffix⟩ := h.strange
  have hlength := hsuffix.length_le
  rw [List.length_cons] at hlength
  omega

-- Tokens may be added, and candidates dropped, or set behind the settled tokens.
theorem Rooted.grow (h : Rooted base text s) (htokens : s.tokens <:+ s'.tokens)
    (hcandidates : ∀ k, some k ∈ s'.candidates → some k ∈ s.candidates ∨ base.length ≤ k.position) :
    Rooted base text s' := by
  obtain ⟨t, ht, hsuffix⟩ := h.strange
  exact ⟨⟨t, ht, hsuffix.trans htokens⟩,
    fun k hk => (hcandidates k hk).elim (h.behind k) id⟩

theorem Rooted.keep (h : Rooted base text s) (htokens : s'.tokens = s.tokens)
    (hcandidates : s'.candidates = s.candidates) : Rooted base text s' := by
  obtain ⟨hstrange, hbehind⟩ := h
  rw [← htokens] at hstrange
  rw [← hcandidates] at hbehind
  exact ⟨hstrange, hbehind⟩

-- A token that is put in directly behind the settled ones is strange as well.
theorem Rooted.insertAt (h : Rooted base text s) {position : Nat} {t : Token}
    (hposition : base.length ≤ position) (ht : position = base.length → Node.Strange text t) :
    Rooted base text (s.insertAt position t) := by
  obtain ⟨first, hfirst, later, hlater⟩ := h.strange
  refine ⟨?_, h.behind⟩
  unfold Scanner.insertAt
  simp only
  have hlength : s.tokens.length = later.length + 1 + base.length := by
    rw [← hlater, List.length_append, List.length_cons]
    omega
  by_cases hhere : position = base.length
  · refine ⟨t, ht hhere, later ++ [first], ?_⟩
    have hbehind : s.tokens.length - position = (later ++ [first]).length := by
      rw [List.length_append, List.length_singleton]
      omega
    have hsplit : s.tokens = (later ++ [first]) ++ base := by
      rw [← hlater, List.append_assoc]
      rfl
    rw [hbehind, hsplit, List.take_left, List.drop_left]
  · refine ⟨first, hfirst, ?_⟩
    have hdrop : first :: base <:+ s.tokens.drop (s.tokens.length - position) := by
      refine List.suffix_of_suffix_length_le ⟨later, hlater⟩ (List.drop_suffix _ _) ?_
      rw [List.length_drop, List.length_cons]
      omega
    exact (hdrop.trans (List.suffix_cons t _)).trans (List.suffix_append _ _)

theorem Rooted.openBlock (h : Rooted base text s) {column position : Nat} {t : Token}
    (hposition : base.length ≤ position) (ht : position = base.length → Node.Strange text t) :
    Rooted base text (s.openBlock column position t) := by
  unfold Scanner.openBlock
  split
  · exact (h.insertAt hposition ht).keep rfl rfl
  · exact h

theorem Rooted.emit (h : Rooted base text s) (t : Token) : Rooted base text (s.emit t) :=
  h.grow (List.suffix_cons t _) fun _ hk => .inl hk

theorem Rooted.closeBlocks (h : Rooted base text s) (column : Option Nat) :
    Rooted base text (s.closeBlocks column) := by
  unfold Scanner.closeBlocks
  split
  · exact h
  · exact h.grow (List.suffix_append _ _) fun _ hk => .inl hk

theorem Rooted.skipToToken (h : Rooted base text s) (fuel : Nat) :
    Rooted base text (skipToToken fuel s) := by
  induction fuel generalizing s with
  | zero => exact h
  | succ fuel ih =>
      rw [Scanner.skipToToken]
      split
      · split
        · exact ih (h.keep rfl rfl)
        · exact h.keep rfl rfl
      · exact h.keep rfl rfl

theorem Rooted.dropCandidate? (h : Rooted base text s) (hs : s.dropCandidate? = some s') :
    Rooted base text s' := by
  unfold Scanner.dropCandidate? at hs
  split at hs
  · rename_i k outer hcandidates
    split at hs
    · cases hs
    · cases hs
      refine h.grow List.suffix_rfl fun k hk => .inl ?_
      rw [hcandidates]
      exact List.mem_cons_of_mem _ ((List.mem_cons.1 hk).resolve_left (by simp))
  · cases hs
    exact h

theorem Rooted.saveCandidate? (h : Rooted base text s) (hs : s.saveCandidate? = some s') :
    Rooted base text s' := by
  unfold Scanner.saveCandidate? at hs
  split at hs
  · obtain ⟨s₁, hs₁, rfl⟩ := Option.map_eq_some_iff.1 hs
    have h₁ := h.dropCandidate? hs₁
    refine h₁.grow List.suffix_rfl fun k hk => ?_
    rcases List.mem_cons.1 hk with heq | hk
    · cases heq
      exact .inr (Nat.le_of_lt h₁.length_lt)
    · exact .inl (List.mem_of_mem_tail hk)
  · cases hs
    exact h

theorem Rooted.dropStale? (h : Rooted base text s) (hs : s.dropStale? = some s') :
    Rooted base text s' := by
  unfold Scanner.dropStale? at hs
  obtain ⟨candidates, hcandidates, rfl⟩ := Option.map_eq_some_iff.1 hs
  refine h.grow List.suffix_rfl fun k hk => .inl ?_
  have hmap := map_eq_of_mapM hcandidates
  obtain ⟨candidate, hmem, hkept⟩ := List.mem_map.1 (hmap ▸ List.mem_map_of_mem hk)
  split at hkept
  · split at hkept
    · split at hkept <;> cases hkept
    · cases hkept
      exact hmem
  · cases hkept

theorem of_ite {p q : Prop} [Decidable p] {a b : Option Scanner}
    (hs : (if p then a else b) = some s') (ha : a = some s' → q) (hb : b = some s' → q) : q := by
  by_cases hp : p
  · exact ha ((if_pos hp).symm.trans hs)
  · exact hb ((if_neg hp).symm.trans hs)

section Tokens

variable (h : Rooted base text s)

include h

theorem Rooted.marker? {t : Token} (hs : s.marker? t = some s') : Rooted base text s' := by
  obtain ⟨s₁, hs₁, rfl⟩ := Option.map_eq_some_iff.1 hs
  exact (((h.closeBlocks none).dropCandidate? hs₁).emit t).keep rfl rfl

theorem Rooted.flowStart? {t : Token} (hs : s.flowStart? t = some s') : Rooted base text s' := by
  obtain ⟨s₁, hs₁, rfl⟩ := Option.map_eq_some_iff.1 hs
  refine ((h.saveCandidate? hs₁).emit t).grow List.suffix_rfl fun k hk => .inl ?_
  exact (List.mem_cons.1 hk).resolve_left (by simp)

theorem Rooted.flowEnd? {t : Token} (hs : s.flowEnd? t = some s') : Rooted base text s' := by
  obtain ⟨s₁, hs₁, rfl⟩ := Option.map_eq_some_iff.1 hs
  refine ((h.dropCandidate? hs₁).emit t).grow List.suffix_rfl fun k hk => .inl ?_
  simp only at hk
  split at hk
  · exact List.mem_of_mem_tail hk
  · exact hk

theorem Rooted.flowEntry? (hs : s.flowEntry? = some s') : Rooted base text s' := by
  obtain ⟨s₁, hs₁, rfl⟩ := Option.map_eq_some_iff.1 hs
  exact ((h.dropCandidate? hs₁).emit .flowEntry).keep rfl rfl

theorem Rooted.blockMark? {opening mark : Token} (hs : s.blockMark? opening mark = some s') :
    Rooted base text s' := by
  unfold Scanner.blockMark? at hs
  split at hs
  · cases hs
  · obtain ⟨s₁, hs₁, rfl⟩ := Option.map_eq_some_iff.1 hs
    have hopen : Rooted base text (s.openBlock s.cursor.column s.tokens.length opening) :=
      h.openBlock (Nat.le_of_lt h.length_lt) fun heq => absurd heq (Nat.ne_of_gt h.length_lt)
    exact (hopen.dropCandidate? hs₁).emit mark

theorem Rooted.blockEntry? (hs : s.blockEntry? = some s') : Rooted base text s' := by
  obtain ⟨s₁, hs₁, rfl⟩ := Option.map_eq_some_iff.1 hs
  exact (h.blockMark? hs₁).keep rfl rfl

theorem Rooted.explicitKey? (hs : s.explicitKey? = some s') : Rooted base text s' := by
  obtain ⟨s₁, hs₁, rfl⟩ := Option.map_eq_some_iff.1 hs
  exact (h.blockMark? hs₁).keep rfl rfl

-- A key and the mapping it opens go in front of the candidate.
theorem Rooted.value? (hs : s.value? = some s') : Rooted base text s' := by
  unfold Scanner.value? at hs
  split at hs
  · rename_i k outer hcandidates
    cases hs
    have hposition : base.length ≤ k.position :=
      h.behind k (by rw [hcandidates]; exact List.mem_cons_self)
    have hkey : Rooted base text (s.insertAt k.position .key) :=
      h.insertAt hposition fun _ => trivial
    have hopen : Rooted base text
        ((s.insertAt k.position .key).openBlock k.column k.position .blockMappingStart) :=
      hkey.openBlock hposition fun _ => trivial
    refine (hopen.emit .value).grow List.suffix_rfl fun k' hk' => .inr (h.behind k' ?_)
    rw [hcandidates]
    exact List.mem_cons_of_mem _ ((List.mem_cons.1 hk').resolve_left (by simp))
  · split at hs
    · cases hs
    · cases hs
      have hopen : Rooted base text
          (s.openBlock s.cursor.column s.tokens.length .blockMappingStart) :=
        h.openBlock (Nat.le_of_lt h.length_lt) fun _ => trivial
      exact (hopen.emit .value).keep rfl rfl

theorem Rooted.name? {token : String → Token} (hs : s.name? token = some s') :
    Rooted base text s' := by
  obtain ⟨s₁, hs₁, hs⟩ := Option.bind_eq_some_iff.1 hs
  simp only at hs
  split at hs
  · cases hs
    exact ((h.saveCandidate? hs₁).emit _).keep rfl rfl
  · cases hs

theorem Rooted.tag? (hs : s.tag? = some s') : Rooted base text s' := by
  obtain ⟨s₁, hs₁, hs⟩ := Option.bind_eq_some_iff.1 hs
  simp only at hs
  split at hs
  · cases hs
    exact ((h.saveCandidate? hs₁).emit .tag).keep rfl rfl
  · cases hs

theorem Rooted.blockScalar? {folded : Bool} (hs : s.blockScalar? folded = some s') :
    Rooted base text s' := by
  obtain ⟨s₁, hs₁, hs⟩ := Option.bind_eq_some_iff.1 hs
  obtain ⟨read, -, rfl⟩ := Option.map_eq_some_iff.1 hs
  exact ((h.dropCandidate? hs₁).emit (.scalar (String.ofList read.text) false)).keep rfl rfl

theorem Rooted.quotedScalar? {single : Bool} (hs : s.quotedScalar? single = some s') :
    Rooted base text s' := by
  obtain ⟨s₁, hs₁, hs⟩ := Option.bind_eq_some_iff.1 hs
  obtain ⟨read, -, rfl⟩ := Option.map_eq_some_iff.1 hs
  exact ((h.saveCandidate? hs₁).emit (.scalar (String.ofList read.text) false)).keep rfl rfl

theorem Rooted.plainScalar? (hs : s.plainScalar? = some s') : Rooted base text s' := by
  obtain ⟨s₁, hs₁, hs⟩ := Option.bind_eq_some_iff.1 hs
  obtain ⟨read, -, rfl⟩ := Option.map_eq_some_iff.1 hs
  exact ((h.saveCandidate? hs₁).emit (.scalar (String.ofList read.text) true)).keep rfl rfl

theorem Rooted.directive? (hs : s.directive? = some s') : Rooted base text s' := by
  obtain ⟨s₁, hs₁, hs⟩ := Option.bind_eq_some_iff.1 hs
  simp only at hs
  split at hs
  · split at hs
    · cases hs
      exact (((h.closeBlocks none).dropCandidate? hs₁).emit .directive).keep rfl rfl
    · cases hs
  · cases hs

-- One case per kind of token.
theorem Rooted.fetch? {c : Char} {rest : List Char} (hs : s.fetch? c rest = some s') :
    Rooted base text s' := by
  unfold Scanner.fetch? at hs
  refine of_ite hs h.directive? fun hs => ?_
  refine of_ite hs h.marker? fun hs => ?_
  refine of_ite hs h.marker? fun hs => ?_
  refine of_ite hs h.flowStart? fun hs => ?_
  refine of_ite hs h.flowStart? fun hs => ?_
  refine of_ite hs h.flowEnd? fun hs => ?_
  refine of_ite hs h.flowEnd? fun hs => ?_
  refine of_ite hs h.flowEntry? fun hs => ?_
  refine of_ite hs h.blockEntry? fun hs => ?_
  refine of_ite hs h.explicitKey? fun hs => ?_
  refine of_ite hs h.value? fun hs => ?_
  refine of_ite hs h.name? fun hs => ?_
  refine of_ite hs h.name? fun hs => ?_
  refine of_ite hs h.tag? fun hs => ?_
  refine of_ite hs h.blockScalar? fun hs => ?_
  refine of_ite hs h.blockScalar? fun hs => ?_
  refine of_ite hs h.quotedScalar? fun hs => ?_
  refine of_ite hs h.quotedScalar? fun hs => ?_
  exact of_ite hs (fun hs => by cases hs) h.plainScalar?

theorem Rooted.run {fuel : Nat} (hs : run fuel s = some s') : Rooted base text s' := by
  induction fuel generalizing s with
  | zero => cases hs
  | succ fuel ih =>
      rw [run_succ] at hs
      obtain ⟨s₁, hs₁, hs⟩ := Option.bind_eq_some_iff.1 hs
      obtain ⟨s₂, hs₂, rfl⟩ := Option.map_eq_some_iff.1 hs₁
      have hsettled := ((h.skipToToken _).dropStale? hs₂).closeBlocks (some s₂.cursor.column)
      split at hs
      · exact (hsettled.closeBlocks none).dropCandidate? hs
      · obtain ⟨s₃, hs₃, hs⟩ := Option.bind_eq_some_iff.1 hs
        exact ih (hsettled.fetch? hs₃) hs

end Tokens

end ApiCatalog.Yaml.Scanner
