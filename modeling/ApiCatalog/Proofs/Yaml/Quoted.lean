import ApiCatalog.Yaml.Scalar
import Mathlib.Data.List.Chain
import Mathlib.Data.List.TakeWhile

namespace ApiCatalog.Yaml

section Characters

theorem not_isBreak_of_isBlank {c : Char} (h : isBlank c) : isBreak c = false := by
  rcases Bool.or_eq_true_iff.1 h with h | h <;> rw [beq_iff_eq.1 h] <;> rfl

theorem not_isBlank_of_isBreak {c : Char} (h : isBreak c) : isBlank c = false := by
  rw [← Bool.not_eq_true]
  intro hblank
  rw [not_isBreak_of_isBlank hblank] at h
  cases h

theorem unifyBreaks_cons (c : Char) (rest : List Char) :
    unifyBreaks (c :: rest) =
      if c = '\r' ∧ rest.head? = some '\n' then unifyBreaks rest
      else (if c = '\r' ∨ c.toNat = 0x85 then '\n' else c) :: unifyBreaks rest := by
  rw [unifyBreaks.eq_def]
  by_cases hreturn : c = '\r'
  · simp only [hreturn, if_true, true_and, true_or]
    cases rest with
    | nil => simp
    | cons d more =>
        by_cases hd : d = '\n'
        · simp [hd]
        · simp [hd]
  · simp only [hreturn, if_false, false_and, false_or]
    split <;> rfl

theorem unifyBreaks_append_of_not_mem {s : List Char}
    (h : ∀ c ∈ s, c ≠ '\r' ∧ c.toNat ≠ 0x85) (rest : List Char) :
    unifyBreaks (s ++ rest) = s ++ unifyBreaks rest := by
  induction s with
  | nil => rfl
  | cons c more ih =>
      obtain ⟨hreturn, hnext⟩ := h c List.mem_cons_self
      rw [List.cons_append, unifyBreaks_cons, ih fun d hd => h d (List.mem_cons_of_mem c hd)]
      simp [hreturn, hnext]

theorem unifyBreaks_of_not_mem {s : List Char} (h : ∀ c ∈ s, c ≠ '\r' ∧ c.toNat ≠ 0x85) :
    unifyBreaks s = s := by
  have happend := unifyBreaks_append_of_not_mem h []
  rwa [List.append_nil, unifyBreaks, List.append_nil] at happend

-- Only a line feed can be taken together with what stands before it.
theorem unifyBreaks_append_cons {d : Char} (hd : d ≠ '\n') (s rest : List Char) :
    unifyBreaks (s ++ d :: rest) = unifyBreaks s ++ unifyBreaks (d :: rest) := by
  induction s with
  | nil => rfl
  | cons c more ih =>
      have hhead : (more ++ d :: rest).head? = some '\n' ↔ more.head? = some '\n' := by
        cases more with
        | nil => simp [hd]
        | cons e others => rfl
      rw [List.cons_append, unifyBreaks_cons, unifyBreaks_cons, ih]
      simp only [hhead]
      split
      · rfl
      · rfl

theorem length_unifyBreaks_le (s : List Char) : (unifyBreaks s).length ≤ s.length := by
  induction s with
  | nil => exact Nat.le_refl 0
  | cons c rest ih =>
      rw [unifyBreaks_cons]
      split
      · exact Nat.le_succ_of_le ih
      · exact Nat.succ_le_succ ih

theorem of_mem_unifyBreaks {s : List Char} {c : Char} (h : c ∈ unifyBreaks s) :
    (c = '\n' ∨ c ∈ s) ∧ c ≠ '\r' ∧ c.toNat ≠ 0x85 := by
  induction s with
  | nil => cases h
  | cons d rest ih =>
      have hrest : c ∈ unifyBreaks rest → (c = '\n' ∨ c ∈ d :: rest) ∧ c ≠ '\r' ∧ c.toNat ≠ 0x85 :=
        fun hmem => ⟨(ih hmem).1.imp_right (List.mem_cons_of_mem d), (ih hmem).2⟩
      rw [unifyBreaks_cons] at h
      split at h
      · exact hrest h
      · rcases List.mem_cons.1 h with rfl | hmem
        · split
          · exact ⟨.inl rfl, by decide, by decide⟩
          · rename_i hother
            exact ⟨.inr List.mem_cons_self, not_or.1 hother⟩
        · exact hrest hmem

end Characters

namespace Cursor

theorem rest_next (c : Cursor) : c.next.rest = c.rest.tail := by
  unfold next
  split
  · rename_i hrest
    rw [hrest]
    rfl
  · rename_i hrest
    rw [hrest]
    split <;> rfl

theorem rest_skip (c : Cursor) (n : Nat) : (c.skip n).rest = c.rest.drop n := by
  induction n generalizing c with
  | zero => rfl
  | succ n ih => rw [skip, ih, rest_next, List.drop_tail]

theorem line_le_next (c : Cursor) : c.line ≤ c.next.line := by
  unfold next
  split
  · exact Nat.le_refl _
  · split
    · exact Nat.le_succ _
    · exact Nat.le_refl _

theorem line_le_skip (c : Cursor) (n : Nat) : c.line ≤ (c.skip n).line := by
  induction n generalizing c with
  | zero => exact Nat.le_refl _
  | succ n ih => exact c.line_le_next.trans (ih c.next)

theorem skip_add (c : Cursor) (m n : Nat) : c.skip (m + n) = (c.skip m).skip n := by
  induction m generalizing c with
  | zero => rw [Nat.zero_add, skip]
  | succ m ih => rw [Nat.succ_add, skip, ih, skip]

theorem column_next {c : Cursor} {ch : Char} {rest : List Char} (h : c.rest = ch :: rest) :
    c.next.column = if isBreak ch then 0 else c.column + 1 := by
  rw [next, h]
  simp only
  split <;> rfl

-- A line starts behind a break, and nowhere else.
theorem column_skip_eq_zero_iff {c : Cursor} {run rest : List Char} (hrun : run ≠ [])
    (h : c.rest = run ++ rest) :
    (c.skip run.length).column = 0 ↔ run.getLast?.any isBreak := by
  induction run generalizing c with
  | nil => exact absurd rfl hrun
  | cons ch more ih =>
      rw [List.length_cons, skip]
      cases more with
      | nil =>
          rw [List.length_nil, skip, column_next h]
          simp
      | cons d others =>
          have hnext : c.next.rest = (d :: others) ++ rest := by rw [rest_next, h]; rfl
          rw [ih (List.cons_ne_nil d others) hnext, List.getLast?_cons_cons]

end Cursor

section Folding

variable {u r run : List Char}

-- A text as it is read between quotes: every run of blanks and breaks folded.
inductive Folds : List Char → List Char → Prop where
  | nil : Folds [] []
  | char {c : Char} {u r : List Char} (hc : isBlankOrBreak c = false) (h : Folds u r) :
      Folds (c :: u) (c :: r)
  | run {run u r : List Char} (hne : run ≠ []) (hrun : ∀ c ∈ run, isBlankOrBreak c)
      (hend : ∀ c ∈ u.head?, isBlankOrBreak c = false) (h : Folds u r) :
      Folds (run ++ u) (foldBlanks run ++ r)

theorem exists_folds (u : List Char) : ∃ r, Folds u r := by
  induction hn : u.length using Nat.strong_induction_on generalizing u with
  | _ n ih =>
      cases u with
      | nil => exact ⟨[], .nil⟩
      | cons c rest =>
          by_cases hc : isBlankOrBreak c
          · have hsplit := List.takeWhile_append_dropWhile (p := isBlankOrBreak) (l := c :: rest)
            have hne : (c :: rest).takeWhile isBlankOrBreak ≠ [] := by
              simp [hc]
            have hlength := congrArg List.length hsplit
            rw [List.length_append] at hlength
            obtain ⟨r, hr⟩ := ih ((c :: rest).dropWhile isBlankOrBreak).length
              (by have := List.length_pos_iff.2 hne; omega) _ rfl
            rw [← hsplit]
            refine ⟨_, .run hne (fun d hd => List.mem_takeWhile_imp hd) (fun d hd => ?_) hr⟩
            have hhead := List.head?_dropWhile_not isBlankOrBreak (c :: rest)
            rw [Option.mem_def.1 hd] at hhead
            simpa using hhead
          · rw [List.length_cons] at hn
            obtain ⟨r, hr⟩ := ih rest.length (by omega) rest rfl
            exact ⟨c :: r, .char (Bool.eq_false_iff.2 hc) hr⟩

theorem length_foldBlanks_le (run : List Char) : (foldBlanks run).length ≤ run.length := by
  have hfilter := List.length_filter_le isBreak run
  unfold foldBlanks
  split
  · exact Nat.le_refl _
  · rename_i first more heq
    rw [heq, List.length_cons] at hfilter
    split
    · split
      · rw [List.length_singleton]
        omega
      · omega
    · rw [List.length_cons]
      exact hfilter

theorem of_mem_foldBlanks {c : Char} (h : c ∈ foldBlanks run) : c = ' ' ∨ c ∈ run := by
  unfold foldBlanks at h
  split at h
  · exact .inr h
  · rename_i first more heq
    have hmem : ∀ d ∈ first :: more, d ∈ run := by
      rw [← heq]
      exact fun d hd => (List.mem_filter.1 hd).1
    split at h
    · split at h
      · exact .inl (List.mem_singleton.1 h)
      · exact .inr (hmem c (List.mem_cons_of_mem first h))
    · exact .inr (hmem c h)

-- Folding leaves a run as it is if it is all blanks, or all breaks of which
-- the first is no line feed.
theorem foldBlanks_eq_self_iff :
    foldBlanks run = run ↔
      (∀ c ∈ run, isBreak c = false) ∨ (∀ c ∈ run, isBreak c) ∧ run.head? ≠ some '\n' := by
  have hlength := List.length_filter_le isBreak run
  unfold foldBlanks
  cases hfilter : run.filter isBreak with
  | nil =>
      have hnone : ∀ c ∈ run, isBreak c = false := by
        simpa [List.filter_eq_nil_iff] using hfilter
      simp only [true_iff]
      exact .inl hnone
  | cons first more =>
      have hfirst : first ∈ run ∧ isBreak first := List.mem_filter.1 (hfilter ▸ List.mem_cons_self)
      have hsome : ¬ ∀ c ∈ run, isBreak c = false := by
        intro hnone
        rw [hnone first hfirst.1] at hfirst
        exact absurd hfirst.2 (by decide)
      have hall : (∀ c ∈ run, isBreak c) ↔ first :: more = run := by
        rw [← hfilter, List.filter_eq_self]
      simp only [hsome, false_or, hall]
      by_cases hfeed : first = '\n'
      · rw [if_pos hfeed]
        constructor
        · intro heq
          split at heq
          · exact absurd (heq ▸ hfirst.1) (by rw [hfeed]; decide)
          · rw [hfilter, ← heq, List.length_cons] at hlength
            omega
        · rintro ⟨heq, hhead⟩
          rw [← heq, hfeed] at hhead
          exact absurd rfl hhead
      · rw [if_neg hfeed]
        constructor
        · intro heq
          refine ⟨heq, ?_⟩
          rw [← heq]
          simpa using hfeed
        · exact fun h => h.1

theorem Folds.length_le (h : Folds u r) : r.length ≤ u.length := by
  induction h with
  | nil => exact Nat.le_refl 0
  | char _ _ ih => exact Nat.succ_le_succ ih
  | run _ _ _ _ ih =>
      rw [List.length_append, List.length_append]
      exact Nat.add_le_add (length_foldBlanks_le _) ih

theorem Folds.of_mem {c : Char} (h : Folds u r) (hc : c ∈ r) : c = ' ' ∨ c ∈ u := by
  induction h with
  | nil => cases hc
  | char _ _ ih =>
      rcases List.mem_cons.1 hc with rfl | hc
      · exact .inr List.mem_cons_self
      · exact (ih hc).imp_right (List.mem_cons_of_mem _)
  | run _ _ _ _ ih =>
      rcases List.mem_append.1 hc with hc | hc
      · exact (of_mem_foldBlanks hc).imp_right (List.mem_append_left _)
      · exact (ih hc).imp_right (List.mem_append_right _)

-- What may follow what in a text that folding leaves as it is: blanks and
-- breaks are never neighbours, and only a break stands in front of a line feed.
def Adjoins (a b : Char) : Prop :=
  (isBlank a → isBreak b = false) ∧ (isBreak a → isBlank b = false) ∧ (b = '\n' → isBreak a)

instance (a b : Char) : Decidable (Adjoins a b) := inferInstanceAs (Decidable (_ ∧ _ ∧ _))

theorem adjoins_of_not_isBlankOrBreak (a : Char) {b : Char} (h : isBlankOrBreak b = false) :
    Adjoins a b := by
  obtain ⟨hblank, hbreak⟩ := Bool.or_eq_false_iff.1 h
  refine ⟨fun _ => hbreak, fun _ => hblank, ?_⟩
  rintro rfl
  exact absurd hbreak (by decide)

theorem isChain_iff_of_head (a : Char) (hend : ∀ c ∈ u.head?, isBlankOrBreak c = false) :
    (a :: u).IsChain Adjoins ↔ u.IsChain Adjoins := by
  cases u with
  | nil => simp
  | cons b rest =>
      rw [List.isChain_cons_cons]
      exact and_iff_right (adjoins_of_not_isBlankOrBreak a (hend b rfl))

-- A run goes on with what it begins with.
theorem isChain_run_iff {a : Char} (ha : isBlankOrBreak a) (hrun : ∀ c ∈ run, isBlankOrBreak c) :
    (a :: run).IsChain Adjoins ↔ ∀ c ∈ run, isBreak c = isBreak a := by
  induction run generalizing a with
  | nil => simp
  | cons b rest ih =>
      have hb := hrun b List.mem_cons_self
      rw [List.isChain_cons_cons, ih hb fun c hc => hrun c (List.mem_cons_of_mem b hc)]
      have hadjoins : Adjoins a b ↔ isBreak b = isBreak a := by
        unfold Adjoins
        cases hab : isBreak a with
        | true =>
            cases hbb : isBreak b with
            | true => simp [not_isBlank_of_isBreak hab, not_isBlank_of_isBreak hbb]
            | false =>
                rw [isBlankOrBreak, hbb, Bool.or_false] at hb
                simp [hb]
        | false =>
            rw [isBlankOrBreak, hab, Bool.or_false] at ha
            simp only [ha, true_imp_iff, Bool.false_eq_true, false_imp_iff, true_and, imp_false]
            refine ⟨fun h => h.1, fun h => ⟨h, ?_⟩⟩
            rintro rfl
            cases h
      rw [hadjoins, List.forall_mem_cons]
      refine and_congr_right fun heq => ?_
      rw [heq]

theorem foldBlanks_eq_self_iff_isChain {a : Char} (ha : isBlankOrBreak a = false)
    (hne : run ≠ []) (hrun : ∀ c ∈ run, isBlankOrBreak c) :
    foldBlanks run = run ↔ (a :: run).IsChain Adjoins := by
  cases run with
  | nil => exact absurd rfl hne
  | cons b rest =>
      obtain ⟨hblank, hbreak⟩ := Bool.or_eq_false_iff.1 ha
      have hadjoins : Adjoins a b ↔ b ≠ '\n' := by
        simp [Adjoins, hblank, hbreak]
      rw [foldBlanks_eq_self_iff, List.isChain_cons_cons, hadjoins,
        isChain_run_iff (hrun b List.mem_cons_self) fun c hc => hrun c (List.mem_cons_of_mem b hc)]
      cases hb : isBreak b with
      | true => simp [hb, and_comm]
      | false =>
          have hfeed : b ≠ '\n' := by
            rintro rfl
            cases hb
          simp [hb, hfeed]

theorem Folds.eq_self_iff (h : Folds u r) {a : Char} (ha : isBlankOrBreak a = false) :
    r = u ↔ (a :: u).IsChain Adjoins := by
  induction h generalizing a with
  | nil => simp
  | @char c u r hc h ih =>
      rw [List.cons.injEq, and_iff_right rfl, ih hc, List.isChain_cons_cons]
      exact (and_iff_right (adjoins_of_not_isBlankOrBreak a hc)).symm
  | @run run u r hne hrun hend h ih =>
      have hparts : foldBlanks run ++ r = run ++ u ↔ foldBlanks run = run ∧ r = u := by
        constructor
        · intro heq
          have hlength := congrArg List.length heq
          rw [List.length_append, List.length_append] at hlength
          have hle := length_foldBlanks_le run
          have hle' := h.length_le
          exact List.append_inj heq (by omega)
        · rintro ⟨hrun, hrest⟩
          rw [hrun, hrest]
      rw [hparts, foldBlanks_eq_self_iff_isChain ha hne hrun, ih ha, isChain_iff_of_head a hend]
      obtain ⟨front, last, rfl⟩ := (List.eq_nil_or_concat' run).resolve_left hne
      have hwhole : a :: (front ++ [last] ++ u) = (a :: front) ++ last :: u := by simp
      rw [hwhole, List.isChain_split, isChain_iff_of_head last hend, List.cons_append]

end Folding

section Markers

-- A document marker at the start of a text, with a blank or a break behind it.
def startsMarked (text : List Char) : Bool :=
  [['-', '-', '-'], ['.', '.', '.']].any fun mark =>
    match mark.isPrefixOf? text with
    | some (c :: _) => isBlankOrBreak c
    | _ => false

-- No line of a text but the first starts with a document marker.
def unmarked : List Char → Bool
  | [] => true
  | c :: rest => !(isBreak c && startsMarked rest) && unmarked rest

theorem isPrefixOf?_append_cons {mark : List Char} {d : Char} (hd : d ∉ mark)
    (text rest : List Char) :
    mark.isPrefixOf? (text ++ d :: rest) = (mark.isPrefixOf? text).map (· ++ d :: rest) := by
  induction mark generalizing text with
  | nil => rfl
  | cons m more ih =>
      obtain ⟨hm, hmore⟩ := not_or.1 (mt List.mem_cons.2 hd)
      cases text with
      | nil =>
          have hbeq : (m == d) = false := beq_eq_false_iff_ne.2 (Ne.symm hm)
          simp [List.isPrefixOf?, hbeq]
      | cons c others =>
          rw [List.cons_append, List.isPrefixOf?, List.isPrefixOf?]
          split
          · exact ih hmore others
          · rfl

theorem isMarker_eq {c : Cursor} {mark text rest : List Char} {d : Char} (hd : d ∉ mark)
    (hblank : isBlankOrBreak d = false) (h : c.rest = text ++ d :: rest) :
    isMarker mark c = (c.column == 0 && match mark.isPrefixOf? text with
      | some (c :: _) => isBlankOrBreak c
      | _ => false) := by
  rw [isMarker, h, isPrefixOf?_append_cons hd]
  cases mark.isPrefixOf? text with
  | none => rfl
  | some after =>
      cases after with
      | nil => simp only [Option.map_some, List.nil_append, endsWord, hblank]
      | cons e others => rfl

theorem isDocument_eq {c : Cursor} {text rest : List Char} (h : c.rest = text ++ '"' :: rest) :
    (isDocumentStart c || isDocumentEnd c) = (c.column == 0 && startsMarked text) := by
  rw [isDocumentStart, isDocumentEnd, isMarker_eq (by decide) (by decide) h,
    isMarker_eq (by decide) (by decide) h, ← Bool.and_or_distrib_left, startsMarked,
    List.any_cons, List.any_cons, List.any_nil, Bool.or_false]

theorem startsMarked_of_head {c : Char} {rest : List Char} (h : isBlankOrBreak c) :
    startsMarked (c :: rest) = false := by
  have hdash : ('-' == c) = false := by
    rw [beq_eq_false_iff_ne]
    rintro rfl
    exact absurd h (by decide)
  have hdot : ('.' == c) = false := by
    rw [beq_eq_false_iff_ne]
    rintro rfl
    exact absurd h (by decide)
  simp [startsMarked, List.isPrefixOf?, hdash, hdot]

-- Within a run no line starts with anything but blanks.
theorem unmarked_append {run rest : List Char} (hrun : ∀ c ∈ run, isBlankOrBreak c) :
    unmarked (run ++ rest) =
      (!(run.getLast?.any isBreak && startsMarked rest) && unmarked rest) := by
  induction run with
  | nil => simp
  | cons c more ih =>
      rw [List.cons_append, unmarked, ih fun d hd => hrun d (List.mem_cons_of_mem c hd)]
      cases more with
      | nil =>
          have hlast : [c].getLast?.any isBreak = isBreak c := rfl
          rw [hlast]
          simp
      | cons d others =>
          have hmarked : startsMarked (d :: others ++ rest) = false :=
            startsMarked_of_head (hrun d (by simp))
          rw [hmarked, List.getLast?_cons_cons, Bool.and_false, Bool.not_false, Bool.true_and]

end Markers

-- What stands between two quotes, without a quote or a backslash of its own, is
-- read as it folds, unless a line of it is a document marker.
theorem quotedFrom_eq {u r : List Char} (h : Folds u r) {fuel : Nat} {text rest : List Char}
    {c : Cursor} (hquote : '"' ∉ u) (hescape : '\\' ∉ u) (hfuel : u.length < fuel)
    (hc : c.rest = u ++ '"' :: rest) :
    quotedFrom false fuel text c =
      if (c.column == 0 && startsMarked u) || !unmarked u then none
      else some ⟨text ++ r, c.skip (u.length + 1), false⟩ := by
  induction h generalizing fuel text c with
  | nil =>
      obtain ⟨fuel, rfl⟩ := Nat.exists_eq_succ_of_ne_zero (Nat.ne_zero_of_lt hfuel)
      have hmarked : startsMarked [] = false := rfl
      rw [quotedFrom, isDocument_eq hc, hc]
      simp [hmarked, unmarked, Cursor.skip]
  | @char ch u r hch h ih =>
      obtain ⟨fuel, rfl⟩ := Nat.exists_eq_succ_of_ne_zero (Nat.ne_zero_of_lt hfuel)
      obtain ⟨-, hbreak⟩ := Bool.or_eq_false_iff.1 hch
      obtain ⟨hchquote, hquote⟩ := not_or.1 (mt List.mem_cons.2 hquote)
      obtain ⟨hchescape, hescape⟩ := not_or.1 (mt List.mem_cons.2 hescape)
      have hunmarked : unmarked (ch :: u) = unmarked u := by simp [unmarked, hbreak]
      have hnext : c.next.rest = u ++ '"' :: rest := by rw [Cursor.rest_next, hc]; rfl
      -- what comes next does not start a line
      have hcolumn : (c.next.column == 0) = false := by
        rw [Cursor.column_next hc, hbreak]
        simp
      have hread := @ih fuel (text ++ [ch]) c.next hquote hescape
        (Nat.lt_of_succ_lt_succ hfuel) hnext
      rw [hcolumn, Bool.false_and, Bool.false_or] at hread
      rw [quotedFrom, isDocument_eq hc, hunmarked, hc]
      cases hmarked : (c.column == 0 && startsMarked (ch :: u)) with
      | true => rfl
      | false =>
          simp [Ne.symm hchquote, Ne.symm hchescape, hch, hread, Cursor.skip]
  | @run run u r hne hrun hend h ih =>
      obtain ⟨fuel, rfl⟩ := Nat.exists_eq_succ_of_ne_zero (Nat.ne_zero_of_lt hfuel)
      rw [List.mem_append, not_or] at hquote hescape
      rw [List.append_assoc] at hc
      obtain ⟨b, others, hb⟩ := List.exists_cons_of_ne_nil hne
      have hblank : isBlankOrBreak b := hrun b (by rw [hb]; exact List.mem_cons_self)
      have hbquote : b ≠ '"' := by rintro rfl; exact absurd hblank (by decide)
      have hbescape : b ≠ '\\' := by rintro rfl; exact absurd hblank (by decide)
      have hmarked : startsMarked (run ++ u) = false := by
        rw [hb]
        exact startsMarked_of_head hblank
      have hblanks : c.takeWhile isBlankOrBreak = run := by
        have hstop : (u ++ '"' :: rest).takeWhile isBlankOrBreak = [] := by
          cases u with
          | nil => rfl
          | cons d more => simp [hend d rfl]
        rw [Cursor.takeWhile, hc, List.takeWhile_append_of_pos hrun, hstop, List.append_nil]
      have hskip : (c.skip run.length).rest = u ++ '"' :: rest := by
        rw [Cursor.rest_skip, hc, List.drop_left]
      have hcolumn : ((c.skip run.length).column == 0) = run.getLast?.any isBreak := by
        rw [Bool.eq_iff_iff, beq_iff_eq, Cursor.column_skip_eq_zero_iff hne hc]
      have hread := @ih fuel (text ++ foldBlanks run) (c.skip run.length) hquote.2 hescape.2
        (by rw [List.length_append, hb, List.length_cons] at hfuel; omega) hskip
      rw [hcolumn] at hread
      have hafter : c.skip ((run ++ u).length + 1) = (c.skip run.length).skip (u.length + 1) := by
        rw [List.length_append, Nat.add_assoc, Cursor.skip_add]
      rw [quotedFrom, isDocument_eq (by rw [hc, List.append_assoc]), hmarked, hblanks, hread,
        unmarked_append hrun, hafter, hc, hb]
      simp [hbquote, hbescape, hblank]

section Quotable

-- A text that may be put between double quotes as it is.
structure Quotable (text : List Char) : Prop where
  allowed : ∀ c ∈ text, isAllowed c
  unquoted : '"' ∉ text
  unescaped : '\\' ∉ text
  unreturned : ∀ c ∈ text, c ≠ '\r' ∧ c.toNat ≠ 0x85
  unfolded : ('"' :: text).IsChain Adjoins
  unmarked : unmarked text

instance (text : List Char) : Decidable (Quotable text) :=
  decidable_of_iff (text.all isAllowed ∧ '"' ∉ text ∧ '\\' ∉ text ∧
      (text.all fun c => c ≠ '\r' ∧ c.toNat ≠ 0x85) ∧ ('"' :: text).IsChain Adjoins ∧
        Yaml.unmarked text)
    ⟨fun ⟨h₁, h₂, h₃, h₄, h₅, h₆⟩ => ⟨by simpa using h₁, h₂, h₃, by simpa using h₄, h₅, h₆⟩,
      fun ⟨h₁, h₂, h₃, h₄, h₅, h₆⟩ => ⟨by simpa using h₁, h₂, h₃, by simpa using h₄, h₅, h₆⟩⟩

variable {c : Cursor} {text rest : List Char}

theorem quoted?_eq {u r : List Char} (h : Folds u r) (hquote : '"' ∉ u) (hescape : '\\' ∉ u)
    (hc : c.rest = '"' :: (u ++ '"' :: rest)) :
    quoted? false c =
      if unmarked u then some ⟨r, c.skip (u.length + 2), false⟩ else none := by
  have hnext : c.next.rest = u ++ '"' :: rest := by rw [Cursor.rest_next, hc]; rfl
  have hcolumn : (c.next.column == 0) = false := by
    rw [Cursor.column_next hc]
    simp [show isBreak '"' = false from rfl]
  have hafter : c.skip (u.length + 2) = c.next.skip (u.length + 1) := rfl
  rw [quoted?, quotedFrom_eq h hquote hescape (by rw [hc]; simp; omega) hnext, hcolumn, hafter]
  cases unmarked u <;> rfl

theorem Quotable.quoted?_eq (h : Quotable text) (hc : c.rest = '"' :: (text ++ '"' :: rest)) :
    quoted? false c = some ⟨text, c.skip (text.length + 2), false⟩ := by
  obtain ⟨r, hr⟩ := exists_folds text
  have hself : r = text := (hr.eq_self_iff (by decide)).2 h.unfolded
  rw [Yaml.quoted?_eq hr h.unquoted h.unescaped hc, if_pos h.unmarked, hself]

-- Any other text is cut short at a quote of its own, or folded, or refused.
theorem ne_of_quoted?_eq_some (hallowed : ∀ c ∈ text, isAllowed c) (hescape : '\\' ∉ text)
    (h : ¬ Quotable text) (hc : c.rest = '"' :: (unifyBreaks text ++ '"' :: rest)) {read : ScalarRead}
    (hread : quoted? false c = some read) : read.text ≠ text := by
  have hkeeps : ∀ {d : Char} {s : List Char}, d ≠ '\n' → d ∉ s → d ∉ unifyBreaks s :=
    fun hd hs hmem => hs ((of_mem_unifyBreaks hmem).1.resolve_left hd)
  by_cases hquote : '"' ∈ text
  · obtain ⟨front, back, rfl, hfront⟩ := List.eq_append_cons_of_mem hquote
    obtain ⟨r, hr⟩ := exists_folds (unifyBreaks front)
    have hsplit : unifyBreaks (front ++ '"' :: back) = unifyBreaks front ++ '"' :: unifyBreaks back := by
      rw [unifyBreaks_append_cons (by decide), unifyBreaks_cons]
      rfl
    rw [hsplit, List.append_assoc] at hc
    rw [Yaml.quoted?_eq hr (hkeeps (by decide) hfront)
      (hkeeps (by decide) fun hmem => hescape (List.mem_append_left _ hmem)) hc] at hread
    split at hread
    · cases hread
      intro heq
      have hlength : r.length = (front ++ '"' :: back).length := congrArg List.length heq
      have hle := hr.length_le
      have hle' := length_unifyBreaks_le front
      rw [List.length_append, List.length_cons] at hlength
      omega
    · cases hread
  · obtain ⟨r, hr⟩ := exists_folds (unifyBreaks text)
    rw [Yaml.quoted?_eq hr (hkeeps (by decide) hquote) (hkeeps (by decide) hescape) hc] at hread
    split at hread
    · rename_i hunmarked
      cases hread
      intro heq
      change r = text at heq
      subst heq
      -- nothing that is read is a carriage return or a next-line character
      have hunreturned : ∀ d ∈ r, d ≠ '\r' ∧ d.toNat ≠ 0x85 := by
        intro d hd
        rcases hr.of_mem hd with rfl | hmem
        · decide
        · exact (of_mem_unifyBreaks hmem).2
      rw [unifyBreaks_of_not_mem hunreturned] at hr hunmarked
      exact h ⟨hallowed, hquote, hescape, hunreturned, (hr.eq_self_iff (by decide)).1 rfl,
        hunmarked⟩
    · cases hread

end Quotable

end ApiCatalog.Yaml
