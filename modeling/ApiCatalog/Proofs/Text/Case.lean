import ApiCatalog.Proofs.Text

namespace ApiCatalog.Text

def blankRanges : List (Nat × Nat) :=
  [(9, 13), (0x20, 0x20), (0x85, 0x85), (0xA0, 0xA0), (0x1680, 0x1680), (0x2000, 0x200A),
    (0x2028, 0x2028), (0x2029, 0x2029), (0x202F, 0x202F), (0x205F, 0x205F), (0x3000, 0x3000)]

theorem isBlank_eq_inRanges (c : Char) : isBlank c = inRanges blankRanges c.toNat := by
  have hsingle : ∀ n m : Nat, (n == m) = (decide (m ≤ n) && decide (n ≤ m)) := by
    intro n m
    rw [Bool.eq_iff_iff, beq_iff_eq, Bool.and_eq_true, decide_eq_true_eq, decide_eq_true_eq]
    omega
  simp only [isBlank, inRanges, blankRanges, List.any_cons, List.any_nil, Bool.or_false,
    Bool.or_assoc, hsingle]

theorem isBlank_ofNat {n : Nat} (h : inRanges blankRanges n = false) :
    isBlank (Char.ofNat n) = false := by
  rw [isBlank_eq_inRanges]
  unfold Char.ofNat
  by_cases hvalid : n.isValidChar
  · rw [dif_pos hvalid]
    exact h
  · rw [dif_neg hvalid]
    decide

-- No letter of the run is a blank, and none becomes one.
def CaseRun.isClear (r : CaseRun) : Bool :=
  blankRanges.all fun (lo, hi) =>
    (hi < r.first || r.last < lo) && (hi < r.image || r.image + (r.last - r.first) < lo)

theorem CaseRun.inRanges_eq_false {r : CaseRun} (h : r.isClear) {n m : Nat}
    (hmapped : r.mapped? n = some m) :
    inRanges blankRanges n = false ∧ inRanges blankRanges m = false := by
  unfold mapped? at hmapped
  split at hmapped
  · rename_i hrange
    simp only [Bool.and_eq_true, decide_eq_true_eq, beq_iff_eq] at hrange
    obtain ⟨⟨hfirst, hlast⟩, -⟩ := hrange
    cases hmapped
    simp only [isClear, List.all_eq_true, Bool.and_eq_true, Bool.or_eq_true,
      decide_eq_true_eq] at h
    simp only [inRanges, List.any_eq_false, Bool.and_eq_true, decide_eq_true_eq]
    refine ⟨fun range hmem => ?_, fun range hmem => ?_⟩
    · have hclear := (h range hmem).1
      omega
    · have hclear := (h range hmem).2
      omega
  · cases hmapped

-- A table of letters that leaves blanks alone, and makes none.
structure ClearTable (runs : List CaseRun) (expansions : List (Nat × List Nat)) : Prop where
  runs : ∀ r ∈ runs, r.isClear
  expansions : ∀ e ∈ expansions, inRanges blankRanges e.1 = false ∧ e.2 ≠ [] ∧
    ∀ n ∈ e.2, inRanges blankRanges n = false

theorem clearTable_upper : ClearTable upperRuns upperExpansions where
  runs := by decide +kernel
  expansions := by decide +kernel

theorem clearTable_lower : ClearTable lowerRuns lowerExpansions where
  runs := by decide +kernel
  expansions := by decide +kernel

-- A character is left alone, or it is no blank and none of those it becomes is one.
theorem ClearTable.mapCase_cases {runs : List CaseRun} {expansions : List (Nat × List Nat)}
    (h : ClearTable runs expansions) (c : Char) :
    mapCase runs expansions c = [c] ∨
      mapCase runs expansions c ≠ [] ∧ isBlank c = false ∧
        ∀ d ∈ mapCase runs expansions c, isBlank d = false := by
  unfold Text.mapCase
  split
  · rename_i n hfound
    obtain ⟨r, hr, hmapped⟩ := List.exists_of_findSome?_eq_some hfound
    obtain ⟨hc, hn⟩ := CaseRun.inRanges_eq_false (h.runs r hr) hmapped
    refine .inr ⟨by simp, by rw [isBlank_eq_inRanges, hc], fun d hd => ?_⟩
    rw [List.mem_singleton.1 hd, isBlank_ofNat hn]
  · split
    · rename_i codes hlookup
      obtain ⟨front, back, hsplit, -⟩ := List.lookup_eq_some_iff.1 hlookup
      obtain ⟨hc, hne, hcodes⟩ := h.expansions (c.toNat, codes) (by simp [hsplit])
      refine .inr ⟨by simpa using hne, by rw [isBlank_eq_inRanges, hc], fun d hd => ?_⟩
      obtain ⟨n, hn, rfl⟩ := List.mem_map.1 hd
      exact isBlank_ofNat (hcodes n hn)
    · exact .inl rfl

theorem ClearTable.mapCase {runs : List CaseRun} {expansions : List (Nat × List Nat)}
    (h : ClearTable runs expansions) (c : Char) :
    mapCase runs expansions c ≠ [] ∧
      ∀ d ∈ mapCase runs expansions c, isBlank d = isBlank c := by
  rcases h.mapCase_cases c with hsame | ⟨hne, hc, hall⟩
  · rw [hsame]
    exact ⟨by simp, by simp⟩
  · exact ⟨hne, fun d hd => by rw [hall d hd, hc]⟩

-- No blank comes from anything but itself.
theorem mem_of_mem_upper {s : List Char} {d : Char} (h : d ∈ upper s) (hd : isBlank d) :
    d ∈ s := by
  obtain ⟨c, hc, hmem⟩ := List.mem_flatMap.1 h
  rcases clearTable_upper.mapCase_cases c with hsame | ⟨-, -, hall⟩
  · rw [upperChar, hsame] at hmem
    rwa [List.mem_singleton.1 hmem]
  · rw [hall d hmem] at hd
    cases hd

section Recased

-- Each character gives a part of its own, blank where it is blank.
inductive Recased : List Char → List Char → Prop where
  | nil : Recased [] []
  | cons {c : Char} {part s t : List Char} (hne : part ≠ [])
      (hblank : ∀ d ∈ part, isBlank d = isBlank c) (rest : Recased s t) :
      Recased (c :: s) (part ++ t)

theorem recased_upper (s : List Char) : Recased s (upper s) := by
  induction s with
  | nil => exact .nil
  | cons c rest ih => exact .cons (clearTable_upper.mapCase c).1 (clearTable_upper.mapCase c).2 ih

-- What one character becomes, at the end of a word or elsewhere.
theorem exists_lowerFrom_cons (before : List Char) (c : Char) (rest : List Char) :
    ∃ part, lowerFrom before (c :: rest) = part ++ lowerFrom (c :: before) rest ∧
      (part = lowerChar c ∨ c = 'Σ' ∧ (part = ['ς'] ∨ part = ['σ'])) := by
  refine ⟨_, rfl, ?_⟩
  by_cases hc : c = 'Σ'
  · subst hc
    refine .inr ⟨rfl, ?_⟩
    simp only [beq_self_eq_true, if_true]
    split
    · exact .inl rfl
    · exact .inr rfl
  · simp [hc]

theorem recased_lowerFrom (before s : List Char) : Recased s (lowerFrom before s) := by
  have hfinal : isBlank 'ς' = isBlank 'Σ' := by decide +kernel
  have hinner : isBlank 'σ' = isBlank 'Σ' := by decide +kernel
  induction s generalizing before with
  | nil => exact .nil
  | cons c rest ih =>
      obtain ⟨part, hlower, hpart⟩ := exists_lowerFrom_cons before c rest
      rw [hlower]
      rcases hpart with rfl | ⟨rfl, rfl | rfl⟩
      · exact .cons (clearTable_lower.mapCase c).1 (clearTable_lower.mapCase c).2 (ih _)
      · exact .cons (by simp) (List.forall_mem_singleton.2 hfinal) (ih _)
      · exact .cons (by simp) (List.forall_mem_singleton.2 hinner) (ih _)

theorem Recased.eq_nil_iff {s t : List Char} (h : Recased s t) : t = [] ↔ s = [] := by
  cases h with
  | nil => simp
  | cons hne => simp [hne]

theorem Recased.allBlank_eq {s t : List Char} (h : Recased s t) : allBlank t = allBlank s := by
  induction h with
  | nil => rfl
  | @cons c part s t hne hblank rest ih =>
      have hpart : part.all isBlank = isBlank c := by
        rw [Bool.eq_iff_iff, List.all_eq_true]
        constructor
        · intro hall
          obtain ⟨d, hd⟩ := List.exists_mem_of_ne_nil _ hne
          rw [← hblank d hd]
          exact hall d hd
        · intro hc d hd
          rw [hblank d hd, hc]
      rw [allBlank, List.all_append, hpart, ← allBlank, ih]
      rfl

theorem Recased.head? {s t : List Char} (h : Recased s t) {d : Char} (hd : d ∈ t.head?) :
    ∃ c ∈ s.head?, isBlank d = isBlank c := by
  cases h with
  | nil => cases hd
  | @cons c part s t hne hblank rest =>
      rw [List.head?_append_of_ne_nil _ hne] at hd
      exact ⟨c, rfl, hblank d (List.mem_of_mem_head? hd)⟩

theorem Recased.getLast? {s t : List Char} (h : Recased s t) {d : Char} (hd : d ∈ t.getLast?) :
    ∃ c ∈ s.getLast?, isBlank d = isBlank c := by
  induction h with
  | nil => cases hd
  | @cons c part s t hne hblank rest ih =>
      by_cases hs : s = []
      · subst hs
        rw [rest.eq_nil_iff.2 rfl, List.append_nil] at hd
        exact ⟨c, rfl, hblank d (List.mem_of_getLast? hd)⟩
      · have ht : t ≠ [] := mt rest.eq_nil_iff.1 hs
        rw [List.getLast?_append_of_ne_nil _ ht] at hd
        obtain ⟨e, he, hsame⟩ := ih hd
        obtain ⟨first, more, rfl⟩ := List.exists_cons_of_ne_nil hs
        exact ⟨e, by rwa [List.getLast?_cons_cons], hsame⟩

-- Blanks at the ends are neither made nor lost.
theorem Recased.trimmed {s t : List Char} (h : Recased s t) (hs : Trimmed s) : Trimmed t := by
  refine ⟨fun d hd => ?_, fun d hd => ?_⟩
  · obtain ⟨c, hc, hsame⟩ := h.head? hd
    rw [hsame, hs.1 c hc]
  · obtain ⟨c, hc, hsame⟩ := h.getLast? hd
    rw [hsame, hs.2 c hc]

theorem upper_eq_nil_iff (s : List Char) : upper s = [] ↔ s = [] := (recased_upper s).eq_nil_iff

-- Capital letters are blanks exactly where the letters were.
theorem allBlank_upper (s : List Char) : allBlank (upper s) = allBlank s :=
  (recased_upper s).allBlank_eq

theorem upper_of_blanks {s : List Char} (h : ∀ c ∈ s, isBlank c) : upper s = s := by
  have hsame : ∀ c ∈ s, upperChar c = [c] := by
    intro c hc
    rcases clearTable_upper.mapCase_cases c with hsame | ⟨-, hsolid, -⟩
    · exact hsame
    · rw [h c hc] at hsolid
      cases hsolid
  rw [upper, List.flatMap_congr hsame, List.flatMap_singleton']

theorem trim_upper (s : List Char) : trim (upper s) = upper (trim s) := by
  obtain ⟨before, after, hs, hbefore, hafter⟩ := exists_trim_append s
  have hupper : upper s = before ++ upper (trim s) ++ after := by
    conv_lhs => rw [hs]
    rw [upper, List.flatMap_append, List.flatMap_append, ← upper, ← upper, ← upper,
      upper_of_blanks hbefore, upper_of_blanks hafter]
  have htrimmed := (recased_upper (trim s)).trimmed (trimmed_trim s)
  rw [hupper, trim_append_append htrimmed before after hbefore hafter]

end Recased

section Settled

-- The last letter that a letter of the run becomes.
def CaseRun.lastImage (r : CaseRun) : Nat := r.image + (r.last - r.first)

-- The code point is no letter of the run. Comparisons are spelled as functions from here on:
-- whole tables are compared with each other, and so they are done in one step.
def CaseRun.misses (q : CaseRun) (n : Nat) : Bool :=
  Nat.blt n q.first || Nat.blt q.last n || n % q.step != q.first % q.step

-- No letter of `r` becomes a letter of `q`: the images lie outside, or miss its steps.
def CaseRun.avoids (r q : CaseRun) : Bool :=
  Nat.blt r.lastImage q.first || Nat.blt q.last r.image ||
    ((r.first == r.last || r.step % q.step == 0) && r.image % q.step != q.first % q.step)

theorem CaseRun.mapped?_eq_some_iff {r : CaseRun} {n m : Nat} :
    r.mapped? n = some m ↔
      r.first ≤ n ∧ n ≤ r.last ∧ r.step ∣ n - r.first ∧ r.image + (n - r.first) = m := by
  unfold mapped?
  split
  · rename_i hrange
    simp only [Bool.and_eq_true, decide_eq_true_eq, beq_iff_eq] at hrange
    simp [hrange, Nat.dvd_of_mod_eq_zero hrange.2]
  · rename_i hrange
    simp only [Bool.and_eq_true, decide_eq_true_eq, beq_iff_eq, not_and] at hrange
    refine ⟨fun h => (by cases h), fun ⟨hfirst, hlast, hstep, _⟩ => ?_⟩
    exact absurd (Nat.mod_eq_zero_of_dvd hstep) (hrange ⟨hfirst, hlast⟩)

theorem CaseRun.mapped?_of_misses {q : CaseRun} {n : Nat} (h : q.misses n) : q.mapped? n = none := by
  cases hmapped : q.mapped? n with
  | none => rfl
  | some m =>
      obtain ⟨hfirst, hlast, ⟨i, hi⟩, -⟩ := mapped?_eq_some_iff.1 hmapped
      have hmod : n % q.step = q.first % q.step := by
        rw [show n = q.first + q.step * i by omega, Nat.add_mul_mod_self_left]
      simp only [misses, Bool.or_eq_true, Nat.blt_eq, bne_iff_ne, ne_eq, hmod, not_true_eq_false,
        or_false] at h
      omega

theorem CaseRun.misses_of_avoids {r q : CaseRun} (h : r.avoids q) {n m : Nat}
    (hmapped : r.mapped? n = some m) : q.misses m := by
  obtain ⟨hfirst, hlast, hstep, rfl⟩ := mapped?_eq_some_iff.1 hmapped
  simp only [avoids, lastImage, Bool.or_eq_true, Bool.and_eq_true, Nat.blt_eq, beq_iff_eq,
    bne_iff_ne] at h
  simp only [misses, Bool.or_eq_true, Nat.blt_eq, bne_iff_ne]
  rcases h with (hbelow | habove) | ⟨hstride, hmod⟩
  · exact .inl (.inl (by omega))
  · exact .inl (.inr (by omega))
  · have hmoved : q.step ∣ n - r.first := by
      rcases hstride with hsingle | hdvd
      · rw [show n - r.first = 0 by omega]
        exact Nat.dvd_zero _
      · exact Nat.dvd_trans (Nat.dvd_of_mod_eq_zero hdvd) hstep
    obtain ⟨i, hi⟩ := hmoved
    rw [hi, Nat.add_mul_mod_self_left]
    exact .inr hmod

variable {runs : List CaseRun} {expansions : List (Nat × List Nat)}

-- A table has nothing to say about a code point.
def isUntouched (runs : List CaseRun) (expansions : List (Nat × List Nat)) (n : Nat) : Bool :=
  runs.all (·.misses n) && expansions.all fun e => e.1 != n

-- A table that leaves alone what it makes.
structure SettledTable (runs : List CaseRun) (expansions : List (Nat × List Nat)) : Prop where
  zero : isUntouched runs expansions 0
  images : runs.all fun r => runs.all (r.avoids ·)
  between : runs.all fun r => expansions.all fun e =>
    Nat.blt e.1 r.image || Nat.blt r.lastImage e.1
  expansions : expansions.all fun e => e.2.all (isUntouched runs expansions ·)

theorem settledTable_upper : SettledTable upperRuns upperExpansions where
  zero := by decide +kernel
  images := by decide +kernel
  between := by decide +kernel
  expansions := by decide +kernel

theorem settledTable_lower : SettledTable lowerRuns lowerExpansions where
  zero := by decide +kernel
  images := by decide +kernel
  between := by decide +kernel
  expansions := by decide +kernel

theorem mapCase_of_isUntouched {c : Char} (h : isUntouched runs expansions c.toNat) :
    mapCase runs expansions c = [c] := by
  simp only [isUntouched, Bool.and_eq_true, List.all_eq_true, bne_iff_ne] at h
  have hruns : runs.findSome? (·.mapped? c.toNat) = none :=
    List.findSome?_eq_none_iff.2 fun q hq => CaseRun.mapped?_of_misses (h.1 q hq)
  have hexpansions : expansions.lookup c.toNat = none :=
    List.lookup_eq_none_iff.2 fun e he => by simpa using (h.2 e he).symm
  rw [mapCase, hruns, hexpansions]

-- A number that is no code point stands for the first one.
theorem SettledTable.mapCase_ofNat (h : SettledTable runs expansions) {n : Nat}
    (hn : isUntouched runs expansions n) :
    mapCase runs expansions (Char.ofNat n) = [Char.ofNat n] := by
  apply mapCase_of_isUntouched
  unfold Char.ofNat
  by_cases hvalid : n.isValidChar
  · rw [dif_pos hvalid]
    exact hn
  · rw [dif_neg hvalid]
    exact h.zero

theorem SettledTable.isUntouched_image (h : SettledTable runs expansions) {r : CaseRun}
    (hr : r ∈ runs) {n m : Nat} (hmapped : r.mapped? n = some m) :
    isUntouched runs expansions m := by
  have himages := List.all_eq_true.1 (List.all_eq_true.1 h.images r hr)
  have hbetween := List.all_eq_true.1 (List.all_eq_true.1 h.between r hr)
  obtain ⟨hfirst, hlast, -, rfl⟩ := CaseRun.mapped?_eq_some_iff.1 hmapped
  rw [isUntouched, Bool.and_eq_true, List.all_eq_true, List.all_eq_true]
  refine ⟨fun q hq => CaseRun.misses_of_avoids (himages q hq) hmapped, fun e he => ?_⟩
  have hapart := hbetween e he
  simp only [CaseRun.lastImage, Bool.or_eq_true, Nat.blt_eq] at hapart
  rw [bne_iff_ne]
  omega

-- What a letter becomes stays what it is.
theorem SettledTable.mapCase_of_mem (h : SettledTable runs expansions) {c d : Char}
    (hd : d ∈ mapCase runs expansions c) : mapCase runs expansions d = [d] := by
  have hself := mapCase.eq_def runs expansions c
  split at hself
  · rename_i n hfound
    obtain ⟨r, hr, hmapped⟩ := List.exists_of_findSome?_eq_some hfound
    rw [hself, List.mem_singleton] at hd
    rw [hd]
    exact h.mapCase_ofNat (h.isUntouched_image hr hmapped)
  · split at hself
    · rename_i codes hlookup
      obtain ⟨front, back, hsplit, -⟩ := List.lookup_eq_some_iff.1 hlookup
      rw [hself] at hd
      obtain ⟨n, hn, rfl⟩ := List.mem_map.1 hd
      have hcodes := List.all_eq_true.1 h.expansions (c.toNat, codes) (by simp [hsplit])
      exact h.mapCase_ofNat (List.all_eq_true.1 hcodes n hn)
    · rw [hself, List.mem_singleton] at hd
      rw [hd, hself]

theorem upper_upper (s : List Char) : upper (upper s) = upper s := by
  have hsettled : ∀ c ∈ s, (upperChar c).flatMap upperChar = upperChar c := by
    intro c _
    have himages : ∀ d ∈ upperChar c, upperChar d = [d] :=
      fun d hd => settledTable_upper.mapCase_of_mem hd
    rw [List.flatMap_congr himages, List.flatMap_singleton']
  rw [upper, upper, List.flatMap_assoc, List.flatMap_congr hsettled]

-- A capital sigma is not among the letters that stay as they are.
theorem lowerFrom_of_settled {s : List Char} (h : ∀ c ∈ s, lowerChar c = [c]) (before : List Char) :
    lowerFrom before s = s := by
  induction s generalizing before with
  | nil => rfl
  | cons c rest ih =>
      have hc : lowerChar c = [c] := h c List.mem_cons_self
      have hsigma : c ≠ 'Σ' := by
        rintro rfl
        exact absurd hc (by decide +kernel)
      rw [lowerFrom, ih fun d hd => h d (List.mem_cons_of_mem c hd), hc]
      simp [hsigma]

theorem lowerChar_of_mem_lowerFrom {before s : List Char} {d : Char} (h : d ∈ lowerFrom before s) :
    lowerChar d = [d] := by
  induction s generalizing before with
  | nil => cases h
  | cons c rest ih =>
      obtain ⟨part, hlower, hpart⟩ := exists_lowerFrom_cons before c rest
      rw [hlower] at h
      rcases List.mem_append.1 h with hd | hrest
      · rcases hpart with rfl | ⟨-, rfl | rfl⟩
        · exact settledTable_lower.mapCase_of_mem hd
        · rw [List.mem_singleton.1 hd]
          decide +kernel
        · rw [List.mem_singleton.1 hd]
          decide +kernel
      · exact ih hrest

theorem lower_lower (s : List Char) : lower (lower s) = lower s :=
  lowerFrom_of_settled (fun _ h => lowerChar_of_mem_lowerFrom h) []

end Settled

end ApiCatalog.Text
