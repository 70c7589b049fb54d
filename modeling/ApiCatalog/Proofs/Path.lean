import ApiCatalog.Path
import ApiCatalog.Proofs.Text

namespace ApiCatalog

namespace Text

theorem endsWith_iff (s mark : List Char) : endsWith s mark ↔ ∃ front, s = front ++ mark := by
  rw [endsWith, List.isPrefixOf_iff_prefix, List.reverse_prefix]
  exact ⟨fun ⟨front, h⟩ => ⟨front, h.symm⟩, fun ⟨front, h⟩ => ⟨front, h.symm⟩⟩

end Text

namespace Path

-- Everything between the separators of a path.
def segments (p : Path) : List (List Char) := Text.splitAt '/' p.text.toList

theorem not_mem_of_mem_segments {p : Path} {segment : List Char} (h : segment ∈ p.segments) :
    '/' ∉ segment :=
  Text.not_mem_of_mem_splitAt h

theorem toList_ne_nil {p : Path} (h : p.text ≠ "") : p.text.toList ≠ [] := by
  simpa using h

-- What the first segment of a path says about where it starts.
def anchorOf : List (List Char) → Anchor × List (List Char)
  | [] :: rest => (.root, rest)
  | ['.'] :: rest => (.here, rest)
  | segments => (.none, segments)

theorem anchored_eq {p : Path} (h : p.text ≠ "") : p.anchored = anchorOf p.segments := by
  unfold anchored segments
  split
  · rename_i hnil
    exact absurd hnil (toList_ne_nil h)
  · rename_i rest hslash
    rw [hslash, Text.splitAt_cons, if_pos rfl]
    rfl
  · rename_i text hne hroot
    cases hs : p.text.toList with
    | nil => exact absurd hs hne
    | cons c rest =>
        have hc : c ≠ '/' := fun heq => hroot rest (by rw [hs, heq])
        rw [Text.splitAt_cons, if_neg hc]
        cases hpieces : Text.splitAt '/' rest with
        | nil => exact absurd hpieces (Text.splitAt_ne_nil '/' rest)
        | cons piece more =>
            simp only
            split
            · rename_i heq
              rw [heq]
              rfl
            · rename_i hhere
              unfold anchorOf
              split
              · rename_i heq
                cases heq
              · rename_i heq
                exact absurd heq (hhere _)
              · rfl

theorem anchorOf_append {first : List (List Char)} (h : first ≠ []) (more : List (List Char)) :
    anchorOf (first ++ more) = ((anchorOf first).1, (anchorOf first).2 ++ more) := by
  cases first with
  | nil => exact absurd rfl h
  | cons segment rest =>
      rw [List.cons_append]
      unfold anchorOf
      split
      · rename_i heq
        cases heq
        rfl
      · rename_i heq
        cases heq
        rfl
      · rename_i hroot hhere
        split
        · rename_i heq
          cases heq
          exact absurd rfl (hroot _)
        · rename_i heq
          cases heq
          exact absurd rfl (hhere _)
        · rfl

def Anchor.lead : Anchor → List (List Char)
  | root => [[]]
  | here => [['.']]
  | none => []

theorem lead_append_anchorOf (segments : List (List Char)) :
    (anchorOf segments).1.lead ++ (anchorOf segments).2 = segments := by
  unfold anchorOf
  split <;> rfl

theorem isAbsolute_iff (p : Path) : p.isAbsolute ↔ ∃ rest, p.text.toList = '/' :: rest := by
  unfold isAbsolute anchored
  split
  · rename_i hnil
    simp [hnil]
  · rename_i rest hslash
    simp [hslash]
  · rename_i hroot
    have hno : ¬ ∃ rest, p.text.toList = '/' :: rest := fun ⟨rest, h⟩ => hroot rest h
    split <;> simp_all

theorem isAbsolute_eq {p : Path} (h : p.text ≠ "") :
    p.isAbsolute = ((anchorOf p.segments).1 == .root) := by
  rw [isAbsolute, anchored_eq h]

section Joining

-- A path without the separator it may end in.
def stem (p : Path) : List Char :=
  if Text.endsWith p.text.toList ['/'] then p.text.toList.dropLast else p.text.toList

theorem stem_of_endsWith {p : Path} {front : List Char} (h : p.text.toList = front ++ ['/']) :
    p.stem = front := by
  rw [stem, if_pos ((Text.endsWith_iff _ _).2 ⟨front, h⟩), h, List.dropLast_concat]

theorem stem_of_not_endsWith {p : Path} (h : ¬ Text.endsWith p.text.toList ['/']) :
    p.stem = p.text.toList := by
  rw [stem, if_neg h]

-- The segments of a path without the empty one behind a last separator.
def trunk (p : Path) : List (List Char) := Text.splitAt '/' p.stem

theorem trunk_ne_nil (p : Path) : p.trunk ≠ [] := Text.splitAt_ne_nil '/' p.stem

theorem segments_eq_trunk (p : Path) : p.segments = p.trunk ∨ p.segments = p.trunk ++ [[]] := by
  by_cases h : Text.endsWith p.text.toList ['/']
  · obtain ⟨front, hfront⟩ := (Text.endsWith_iff _ _).1 h
    refine .inr ?_
    rw [segments, hfront, Text.splitAt_append_cons, Text.splitAt_nil, trunk,
      stem_of_endsWith hfront]
  · refine .inl ?_
    rw [segments, trunk, stem_of_not_endsWith h]

theorem segments_of_text {p q : Path} {rest : List Char}
    (h : p.text.toList = q.stem ++ '/' :: rest) :
    p.segments = q.trunk ++ Text.splitAt '/' rest := by
  rw [segments, h, Text.splitAt_append_cons, trunk]

variable {p q : Path}

-- One separator stands between the two parts of a joined path.
theorem text_join (hp : p.text ≠ "") (hq : q.isAbsolute = false) :
    (p.join q).text.toList = p.stem ++ '/' :: q.text.toList := by
  have hrelative : ¬ q.isAbsolute = true := by simp [hq]
  by_cases h : Text.endsWith p.text.toList ['/']
  · obtain ⟨front, hfront⟩ := (Text.endsWith_iff _ _).1 h
    rw [join, if_neg hrelative, if_pos (by simp [h]), stem_of_endsWith hfront]
    simp [hfront]
  · rw [stem_of_not_endsWith h]
    simp [join, hrelative, h, hp]

theorem text_join_ne (hp : p.text ≠ "") (hq : q.isAbsolute = false) : (p.join q).text ≠ "" := by
  intro h
  have htext := text_join hp hq
  rw [h] at htext
  exact absurd htext (by simp)

theorem segments_join (hp : p.text ≠ "") (hq : q.isAbsolute = false) :
    (p.join q).segments = p.trunk ++ q.segments :=
  segments_of_text (text_join hp hq)

theorem stem_join (hp : p.text ≠ "") (hq : q.isAbsolute = false) :
    (p.join q).stem = p.stem ++ if q.text = "" then [] else '/' :: q.stem := by
  have htext := text_join hp hq
  by_cases hempty : q.text = ""
  · rw [if_pos hempty, List.append_nil]
    exact stem_of_endsWith (by simpa [hempty] using htext)
  · rw [if_neg hempty]
    by_cases h : Text.endsWith q.text.toList ['/']
    · obtain ⟨name, hname⟩ := (Text.endsWith_iff _ _).1 h
      have hend : (p.join q).text.toList = (p.stem ++ '/' :: name) ++ ['/'] := by
        rw [htext, hname, List.append_assoc, List.cons_append]
      rw [stem_of_endsWith hend, stem_of_endsWith hname]
    · -- the end of a joined path is the end of its second part
      have hjoin : ¬ Text.endsWith (p.join q).text.toList ['/'] := by
        intro hend
        obtain ⟨other, hother⟩ := (Text.endsWith_iff _ _).1 hend
        obtain ⟨c, rest, hq'⟩ := List.exists_cons_of_ne_nil (toList_ne_nil hempty)
        have hlast : q.text.toList.getLast? = some '/' := by
          have hboth := congrArg List.getLast? (htext.symm.trans hother)
          rw [hq'] at hboth ⊢
          simpa using hboth
        obtain ⟨name, hname⟩ := List.getLast?_eq_some_iff.1 hlast
        exact h ((Text.endsWith_iff _ _).2 ⟨name, hname⟩)
      rw [stem_of_not_endsWith hjoin, htext, stem_of_not_endsWith h]

theorem steps_eq (hp : p.text ≠ "") :
    p.steps = (anchorOf p.trunk).1.steps ++ (anchorOf p.trunk).2.filterMap step? := by
  unfold steps
  rw [anchored_eq hp]
  rcases p.segments_eq_trunk with h | h
  · rw [h]
  · have hidle : step? [] = none := rfl
    rw [h, anchorOf_append p.trunk_ne_nil]
    simp [hidle]

-- What a path says of its place, taken after what another one says.
theorem steps_of_segments (hp : p.text ≠ "") (hq : q.text ≠ "") {rest : List (List Char)}
    (h : p.segments = q.trunk ++ rest) : p.steps = q.steps ++ rest.filterMap step? := by
  have hsteps : p.steps = (anchorOf p.segments).1.steps ++
      (anchorOf p.segments).2.filterMap step? := by
    unfold steps
    rw [anchored_eq hp]
  rw [hsteps, steps_eq hq, h, anchorOf_append q.trunk_ne_nil, List.filterMap_append,
    List.append_assoc]

theorem steps_ne_nil (hp : p.text ≠ "") : p.steps ≠ [] := by
  have hne := p.trunk_ne_nil
  rw [steps_eq hp]
  cases htrunk : p.trunk with
  | nil => exact absurd htrunk hne
  | cons segment rest =>
      unfold anchorOf
      split
      · simp [Anchor.steps]
      · simp [Anchor.steps]
      · rename_i hroot hhere
        have hidle : isIdle segment = false := by
          have hempty : segment ≠ [] := fun h => hroot rest (by rw [h])
          have hdot : segment ≠ ['.'] := fun h => hhere rest (by rw [h])
          simp [isIdle, hempty, hdot]
        have hstep : (step? segment).isSome := by
          rw [step?, hidle]
          simp only [Bool.false_eq_true, if_false]
          split <;> rfl
        obtain ⟨step, hstep⟩ := Option.isSome_iff_exists.1 hstep
        simp [hstep]

end Joining

section Relative

theorem dropWhile_dropMoves (front rest : List (List Char)) :
    (dropMoves (front.filterMap step?).length (front ++ rest)).dropWhile isIdle =
      rest.dropWhile isIdle := by
  induction front with
  | nil => rw [List.filterMap_nil, List.length_nil, dropMoves, List.nil_append]
  | cons segment front ih =>
      by_cases hidle : isIdle segment
      · have hstep : step? segment = none := by rw [step?, if_pos hidle]
        rw [List.filterMap_cons_none hstep, List.cons_append]
        cases hcount : (front.filterMap step?).length with
        | zero =>
            rw [hcount, dropMoves] at ih
            rw [dropMoves, List.dropWhile_cons_of_pos hidle, ih]
        | succ n =>
            rw [hcount] at ih
            rw [dropMoves, if_pos hidle, ih]
      · have hstep : ∃ step, step? segment = some step := by
          rw [step?, if_neg hidle]
          split <;> exact ⟨_, rfl⟩
        obtain ⟨step, hstep⟩ := hstep
        rw [List.filterMap_cons_some hstep, List.length_cons, List.cons_append, dropMoves,
          if_neg hidle, ih]

-- What is left of a path behind another one does not depend on the other.
theorem relativeTo?_of_segments {p base : Path} (hp : p.text ≠ "") (hbase : base.text ≠ "")
    {rest : List (List Char)} (h : p.segments = base.trunk ++ rest) :
    p.relativeTo? base = some (ofAnchored .none (dropIdleEnd (rest.dropWhile isIdle))) := by
  have hsteps := steps_of_segments hp hbase h
  have hleads : base.steps.isPrefixOf p.steps := by
    rw [List.isPrefixOf_iff_prefix, hsteps]
    exact List.prefix_append _ _
  have hmoves : base.steps.isEmpty = false := by
    simpa using steps_ne_nil hbase
  have hcount : base.steps.length - (anchorOf base.trunk).1.steps.length =
      ((anchorOf base.trunk).2.filterMap step?).length := by
    rw [steps_eq hbase, List.length_append, Nat.add_sub_cancel_left]
  unfold relativeTo?
  rw [anchored_eq hp, h, anchorOf_append base.trunk_ne_nil]
  simp only [hleads, hmoves, if_true, Bool.false_eq_true, if_false, hcount,
    dropWhile_dropMoves]

end Relative

section Names

-- What a directory may call its entries.
structure IsName (name : String) : Prop where
  ne_empty : name ≠ ""
  ne_here : name ≠ "."
  ne_up : name ≠ ".."
  unbroken : '/' ∉ name.toList

instance (name : String) : Decidable (IsName name) :=
  decidable_of_iff (name ≠ "" ∧ name ≠ "." ∧ name ≠ ".." ∧ '/' ∉ name.toList)
    ⟨fun ⟨h₁, h₂, h₃, h₄⟩ => ⟨h₁, h₂, h₃, h₄⟩, fun ⟨h₁, h₂, h₃, h₄⟩ => ⟨h₁, h₂, h₃, h₄⟩⟩

theorem IsName.not_isIdle {name : String} (h : IsName name) : isIdle name.toList = false := by
  have hempty : name.toList ≠ [] := by simpa using h.ne_empty
  have hhere : name.toList ≠ ['.'] := fun heq => h.ne_here (String.toList_inj.1 heq)
  simp [isIdle, hempty, hhere]

theorem IsName.step? {name : String} (h : IsName name) :
    step? name.toList = some (.name name) := by
  have hup : name.toList ≠ ['.', '.'] := fun heq => h.ne_up (String.toList_inj.1 heq)
  rw [Path.step?, h.not_isIdle]
  simp [hup]

theorem IsName.isAbsolute {name : String} (h : IsName name) :
    isAbsolute ⟨name⟩ = false := by
  rw [← Bool.not_eq_true, isAbsolute_iff]
  rintro ⟨rest, hrest⟩
  exact h.unbroken (by rw [hrest]; exact List.mem_cons_self)

theorem IsName.segments {name : String} (h : IsName name) : segments ⟨name⟩ = [name.toList] :=
  Text.splitAt_of_not_mem h.unbroken

-- The path of an entry some levels below a directory.
def below (p : Path) (names : List String) : Path := names.foldl joinText p

theorem text_below_ne {p : Path} (hp : p.text ≠ "") {names : List String}
    (h : ∀ name ∈ names, IsName name) : (p.below names).text ≠ "" := by
  induction names generalizing p with
  | nil => exact hp
  | cons name rest ih =>
      have hname : IsName name := h name List.mem_cons_self
      exact ih (text_join_ne hp hname.isAbsolute) fun n hn => h n (List.mem_cons_of_mem name hn)

theorem IsName.stem {name : String} (h : IsName name) : stem ⟨name⟩ = name.toList := by
  refine stem_of_not_endsWith fun hend => ?_
  obtain ⟨front, hfront⟩ := (Text.endsWith_iff _ _).1 hend
  exact h.unbroken (by simp [hfront])

theorem stem_joinText {p : Path} (hp : p.text ≠ "") {name : String} (h : IsName name) :
    (p.joinText name).stem = p.stem ++ '/' :: name.toList := by
  rw [joinText, stem_join hp h.isAbsolute, if_neg h.ne_empty, h.stem]

-- What the path of an entry says behind the one of the directory.
theorem text_below {p : Path} (hp : p.text ≠ "") {names : List String}
    (h : ∀ name ∈ names, IsName name) (hne : names ≠ []) :
    (p.below names).text.toList = p.stem ++ '/' :: ['/'].intercalate (names.map String.toList) := by
  induction names generalizing p with
  | nil => exact absurd rfl hne
  | cons name rest ih =>
      have hname : IsName name := h name List.mem_cons_self
      have hbelow : p.below (name :: rest) = (p.joinText name).below rest := rfl
      cases rest with
      | nil =>
          have htext := text_join (q := ⟨name⟩) hp hname.isAbsolute
          simpa [hbelow, below, joinText, List.intercalate] using htext
      | cons second more =>
          have hrest := ih (p := p.joinText name) (text_join_ne hp hname.isAbsolute)
            (fun n hn => h n (List.mem_cons_of_mem name hn)) (List.cons_ne_nil second more)
          rw [hbelow, hrest, stem_joinText hp hname, List.append_assoc, List.map_cons,
            List.map_cons, List.map_cons, List.intercalate_cons_cons]
          simp

theorem splitAt_intercalate_names {names : List String} (h : ∀ name ∈ names, IsName name)
    (hne : names ≠ []) :
    Text.splitAt '/' (['/'].intercalate (names.map String.toList)) = names.map String.toList := by
  refine Text.splitAt_intercalate (by simpa using hne) fun piece hpiece => ?_
  obtain ⟨name, hname, rfl⟩ := List.mem_map.1 hpiece
  exact (h name hname).unbroken

theorem filterMap_step?_names {names : List String} (h : ∀ name ∈ names, IsName name) :
    (names.map String.toList).filterMap step? = names.map Step.name := by
  induction names with
  | nil => rfl
  | cons name rest ih =>
      rw [List.map_cons, List.filterMap_cons_some (h name List.mem_cons_self).step?,
        ih fun n hn => h n (List.mem_cons_of_mem name hn), List.map_cons]

theorem dropWhile_isIdle_names {names : List String} (h : ∀ name ∈ names, IsName name) :
    (names.map String.toList).dropWhile isIdle = names.map String.toList := by
  cases names with
  | nil => rfl
  | cons name rest =>
      rw [List.map_cons, List.dropWhile_cons_of_neg]
      simp [(h name List.mem_cons_self).not_isIdle]

theorem segments_below {p : Path} (hp : p.text ≠ "") {names : List String}
    (h : ∀ name ∈ names, IsName name) (hne : names ≠ []) :
    (p.below names).segments = p.trunk ++ names.map String.toList := by
  rw [segments_of_text (text_below hp h hne), splitAt_intercalate_names h hne]

end Names

section Above

theorem exists_dropIdleEnd_append (segments : List (List Char)) :
    ∃ idle, segments = dropIdleEnd segments ++ idle := by
  have hsplit := List.takeWhile_append_dropWhile (p := isIdle) (l := segments.reverse)
  refine ⟨(segments.reverse.takeWhile isIdle).reverse, ?_⟩
  rw [dropIdleEnd, ← List.reverse_append, hsplit, List.reverse_reverse]

theorem segments_ofAnchored_of_ne_nil {anchor : Anchor} {segments : List (List Char)}
    (h : ∀ segment ∈ segments, '/' ∉ segment) (hne : segments ≠ []) :
    (ofAnchored anchor segments).segments = anchor.lead ++ segments := by
  have hbody := Text.splitAt_intercalate hne h
  cases anchor with
  | root =>
      simp only [Path.segments, ofAnchored, String.toList_ofList, Text.splitAt_cons, if_true, hbody]
      rfl
  | here =>
      simp only [Path.segments, ofAnchored, String.toList_ofList, List.isEmpty_iff, hne, if_false]
      rw [show '.' :: '/' :: ['/'].intercalate segments =
        ['.'] ++ '/' :: ['/'].intercalate segments from rfl, Text.splitAt_append_cons, hbody]
      rfl
  | none =>
      simp only [Path.segments, ofAnchored, String.toList_ofList, hbody]
      rfl

theorem segments_ofAnchored {anchor : Anchor} {segments : List (List Char)}
    (h : ∀ segment ∈ segments, '/' ∉ segment) (hne : (ofAnchored anchor segments).text ≠ "") :
    (ofAnchored anchor segments).segments = anchor.lead ++ segments ∨
      (ofAnchored anchor segments).segments = anchor.lead ++ segments ++ [[]] := by
  by_cases hnil : segments = []
  · subst hnil
    cases anchor with
    | root => exact .inr rfl
    | here => exact .inl rfl
    | none => exact absurd rfl hne
  · exact .inl (segments_ofAnchored_of_ne_nil h hnil)

-- A path goes on from where its parent ends.
theorem exists_segments_of_parent? {p q : Path} (h : p.parent? = some q) (hq : q.text ≠ "") :
    ∃ front rest, p.segments = front ++ rest ∧ front ≠ [] ∧ rest ≠ [] ∧
      (q.segments = front ∨ q.segments = front ++ [[]]) := by
  have hp : p.text ≠ "" := by
    intro hp
    have hanchored : p.anchored = (.none, []) := by simp [anchored, hp]
    rw [parent?, hanchored] at h
    cases h
  have hsegments := lead_append_anchorOf p.segments
  have hunbroken : ∀ segment ∈ (anchorOf p.segments).2, '/' ∉ segment := by
    intro segment hmem
    refine not_mem_of_mem_segments (p := p) ?_
    rw [← hsegments]
    exact List.mem_append_right _ hmem
  unfold parent? at h
  rw [anchored_eq hp] at h
  generalize anchorOf p.segments = anchored at h hsegments hunbroken
  obtain ⟨anchor, segments⟩ := anchored
  simp only at h hsegments hunbroken
  cases hbody : dropIdleEnd segments with
  | nil =>
      rw [hbody] at h
      cases anchor with
      | root => cases h
      | here =>
          cases h
          exact absurd rfl hq
      | none => cases h
  | cons first body =>
      obtain ⟨idle, hidle⟩ := exists_dropIdleEnd_append segments
      obtain ⟨idle', hidle'⟩ := exists_dropIdleEnd_append (first :: body).dropLast
      have hlast := List.dropLast_append_getLast (List.cons_ne_nil first body)
      rw [hbody] at h hidle
      have hparent : ofAnchored anchor (dropIdleEnd (first :: body).dropLast) = q := by
        cases anchor <;> exact Option.some.inj h
      have hwhole : segments = dropIdleEnd (first :: body).dropLast ++
          (idle' ++ (first :: body).getLast (List.cons_ne_nil first body) :: idle) := by
        rw [hidle, ← List.append_assoc, ← hidle']
        nth_rewrite 1 [← hlast]
        simp
      rw [← hparent] at hq ⊢
      have hkept : ∀ segment ∈ dropIdleEnd (first :: body).dropLast, '/' ∉ segment := by
        intro segment hmem
        refine hunbroken segment ?_
        rw [hwhole]
        exact List.mem_append_left _ hmem
      have hfront := segments_ofAnchored hkept hq
      refine ⟨anchor.lead ++ dropIdleEnd (first :: body).dropLast,
        idle' ++ (first :: body).getLast (List.cons_ne_nil first body) :: idle, ?_, ?_, by simp,
        hfront⟩
      · rw [← hsegments]
        nth_rewrite 1 [hwhole]
        rw [List.append_assoc]
      · intro hnil
        obtain ⟨hlead, hrest⟩ := List.append_eq_nil_iff.1 hnil
        cases anchor with
        | root => cases hlead
        | here => cases hlead
        | none =>
            rw [hrest] at hq
            exact hq rfl

-- `q` is what is left of `p` when some of its last steps are dropped.
inductive Above : Path → Path → Prop where
  | parent {p q : Path} (h : p.parent? = some q) : Above p q
  | step {p q r : Path} (h : p.parent? = some q) (more : Above q r) : Above p r

theorem eq_or_above_of_mem_ancestorsUpTo {n : Nat} {p q : Path} (h : q ∈ ancestorsUpTo n p) :
    q = p ∨ p.Above q := by
  induction n generalizing p with
  | zero => cases h
  | succ n ih =>
      rw [ancestorsUpTo] at h
      rcases List.mem_cons.1 h with rfl | h
      · exact .inl rfl
      · cases hparent : p.parent? with
        | none =>
            rw [hparent] at h
            cases h
        | some above =>
            rw [hparent] at h
            rcases ih h with rfl | hmore
            · exact .inr (.parent hparent)
            · exact .inr (.step hparent hmore)

end Above

section Parents

theorem dropIdleEnd_append {front : List (List Char)} {last : List Char} (h : isIdle last = false) :
    dropIdleEnd (front ++ [last]) = front ++ [last] := by
  rw [dropIdleEnd, List.reverse_append, List.reverse_singleton, List.singleton_append,
    List.dropWhile_cons_of_neg (by simp [h])]
  simp

theorem filterMap_dropIdleEnd (segments : List (List Char)) :
    (dropIdleEnd segments).filterMap step? = segments.filterMap step? := by
  have hsplit := List.takeWhile_append_dropWhile (p := isIdle) (l := segments.reverse)
  have hidle : (segments.reverse.takeWhile isIdle).reverse.filterMap step? = [] := by
    rw [List.filterMap_eq_nil_iff]
    intro segment hsegment
    rw [step?, if_pos (List.mem_takeWhile_imp (List.mem_reverse.1 hsegment))]
  have hwhole : segments = dropIdleEnd segments ++ (segments.reverse.takeWhile isIdle).reverse := by
    rw [dropIdleEnd, ← List.reverse_append, hsplit, List.reverse_reverse]
  conv_rhs => rw [hwhole, List.filterMap_append, hidle, List.append_nil]

-- A part of what follows an anchor follows the same anchor.
theorem anchorOf_lead_append {segments body rest : List (List Char)}
    (h : (anchorOf segments).2 = body ++ rest) (hne : body ≠ [] ∨ (anchorOf segments).1 ≠ .none)
    (more : List (List Char)) :
    anchorOf ((anchorOf segments).1.lead ++ body ++ more) =
      ((anchorOf segments).1, body ++ more) := by
  cases hanchor : (anchorOf segments).1 with
  | root => rfl
  | here => rfl
  | none =>
      have hbody : body ≠ [] := hne.resolve_right (fun hnot => hnot hanchor)
      have hsegments : segments = body ++ rest := by
        have hlead := lead_append_anchorOf segments
        rw [hanchor, h] at hlead
        exact hlead.symm
      rw [hsegments, anchorOf_append hbody] at hanchor
      have hlead := lead_append_anchorOf body
      change (anchorOf body).1 = _ at hanchor
      rw [hanchor] at hlead
      change anchorOf (body ++ more) = _
      rw [anchorOf_append hbody, hanchor, show (anchorOf body).2 = body from hlead]

-- A path at the same place as another has nothing left behind it.
theorem relativeTo?_of_steps_eq {p base : Path} (h : p.steps = base.steps) (hne : base.steps ≠ []) :
    p.relativeTo? base = some ⟨""⟩ := by
  have hleads : base.steps.isPrefixOf p.steps := by
    rw [List.isPrefixOf_iff_prefix, h]
  have hmoves : base.steps.isEmpty = false := by simpa using hne
  have hcount : base.steps.length - p.anchored.1.steps.length =
      (p.anchored.2.filterMap step?).length := by
    rw [← h, steps, List.length_append, Nat.add_sub_cancel_left]
  have hdrop := dropWhile_dropMoves p.anchored.2 []
  rw [List.append_nil] at hdrop
  unfold relativeTo?
  simp only [hleads, hmoves, if_true, Bool.false_eq_true, if_false, hcount, hdrop]
  rfl

variable {p : Path} {front : List String} {name : String}

theorem parent?_below (hp : p.text ≠ "") (hfront : ∀ n ∈ front, IsName n) (hname : IsName name) :
    (p.below (front ++ [name])).parent? = some (ofAnchored (anchorOf p.trunk).1
      (dropIdleEnd ((anchorOf p.trunk).2 ++ front.map String.toList))) := by
  have hnames : ∀ n ∈ front ++ [name], IsName n := by
    intro n hn
    rcases List.mem_append.1 hn with hn | hn
    · exact hfront n hn
    · rw [List.mem_singleton.1 hn]
      exact hname
  have hbody : dropIdleEnd ((anchorOf p.trunk).2 ++ (front ++ [name]).map String.toList) =
      (anchorOf p.trunk).2 ++ front.map String.toList ++ [name.toList] := by
    rw [List.map_append, List.map_singleton, ← List.append_assoc, dropIdleEnd_append hname.not_isIdle]
  rw [parent?, anchored_eq (text_below_ne hp hnames), segments_below hp hnames (by simp),
    anchorOf_append p.trunk_ne_nil]
  simp only [hbody]
  cases hcons : (anchorOf p.trunk).2 ++ front.map String.toList ++ [name.toList] with
  | nil => exact absurd hcons (by simp)
  | cons first body =>
      rw [← hcons]
      simp

theorem text_ofAnchored_ne {anchor : Anchor} {body : List (List Char)}
    (h : ∀ segment ∈ body, '/' ∉ segment) (hne : anchor.steps ++ body.filterMap step? ≠ []) :
    (ofAnchored anchor body).text ≠ "" := by
  intro hempty
  have htext : (ofAnchored anchor body).text.toList = [] := by rw [hempty]; rfl
  cases anchor with
  | root => simp [ofAnchored] at htext
  | here =>
      simp only [ofAnchored, String.toList_ofList] at htext
      split at htext <;> cases htext
  | none =>
      have hbody : body ≠ [] := by
        rintro rfl
        exact hne rfl
      simp only [ofAnchored, String.toList_ofList] at htext
      have hsplit := Text.splitAt_intercalate hbody h
      rw [htext, Text.splitAt_nil] at hsplit
      rw [← hsplit] at hne
      exact hne rfl

-- The directory that holds a file, seen from a directory above it.
theorem relativeTo?_parent_below (hp : p.text ≠ "") (hfront : ∀ n ∈ front, IsName n) :
    (ofAnchored (anchorOf p.trunk).1
      (dropIdleEnd ((anchorOf p.trunk).2 ++ front.map String.toList))).relativeTo? p =
        some (ofAnchored .none (front.map String.toList)) := by
  have hsteps := steps_eq hp
  have hunbroken : ∀ segment ∈ (anchorOf p.trunk).2, '/' ∉ segment := by
    intro segment hsegment
    refine Text.not_mem_of_mem_splitAt (s := p.stem) ?_
    rw [← trunk, ← lead_append_anchorOf p.trunk]
    exact List.mem_append_right _ hsegment
  rcases List.eq_nil_or_concat' front with rfl | ⟨names, last, rfl⟩
  · rw [List.map_nil, List.append_nil]
    obtain ⟨idle, hidle⟩ := exists_dropIdleEnd_append (anchorOf p.trunk).2
    have hkept : ∀ segment ∈ dropIdleEnd (anchorOf p.trunk).2, '/' ∉ segment := by
      intro segment hsegment
      refine hunbroken segment ?_
      rw [hidle]
      exact List.mem_append_left _ hsegment
    have hmoves : (anchorOf p.trunk).1.steps ++ (dropIdleEnd (anchorOf p.trunk).2).filterMap step? =
        p.steps := by
      rw [filterMap_dropIdleEnd, hsteps]
    have hne := steps_ne_nil hp
    have htext := text_ofAnchored_ne hkept (hmoves ▸ hne)
    have hbody : dropIdleEnd (anchorOf p.trunk).2 ≠ [] ∨ (anchorOf p.trunk).1 ≠ .none := by
      by_contra hnot
      obtain ⟨hnil, hnone⟩ := not_or.1 hnot
      rw [not_not.1 hnil, not_not.1 hnone] at htext
      exact htext rfl
    refine relativeTo?_of_steps_eq ?_ hne
    rw [← hmoves, steps, anchored_eq htext]
    rcases segments_ofAnchored hkept htext with heq | heq
    · have hanchor := anchorOf_lead_append hidle hbody []
      rw [List.append_nil, List.append_nil] at hanchor
      rw [heq, hanchor]
    · rw [heq, anchorOf_lead_append hidle hbody [[]]]
      simp [step?, isIdle]
  · have hlast : IsName last := hfront last (by simp)
    have hend : dropIdleEnd ((anchorOf p.trunk).2 ++ (names ++ [last]).map String.toList) =
        (anchorOf p.trunk).2 ++ (names ++ [last]).map String.toList := by
      rw [List.map_append, List.map_singleton, ← List.append_assoc,
        dropIdleEnd_append hlast.not_isIdle]
    have hkept : ∀ segment ∈ (anchorOf p.trunk).2 ++ (names ++ [last]).map String.toList,
        '/' ∉ segment := by
      intro segment hsegment
      rcases List.mem_append.1 hsegment with hsegment | hsegment
      · exact hunbroken segment hsegment
      · obtain ⟨name, hname, rfl⟩ := List.mem_map.1 hsegment
        exact (hfront name hname).unbroken
    have hbody : (anchorOf p.trunk).2 ++ (names ++ [last]).map String.toList ≠ [] := by simp
    have hmoves : (anchorOf p.trunk).1.steps ++
        ((anchorOf p.trunk).2 ++ (names ++ [last]).map String.toList).filterMap step? ≠ [] := by
      rw [List.filterMap_append, filterMap_step?_names hfront]
      simp
    have hsegments : (ofAnchored (anchorOf p.trunk).1 ((anchorOf p.trunk).2 ++
        (names ++ [last]).map String.toList)).segments =
          p.trunk ++ (names ++ [last]).map String.toList := by
      rw [segments_ofAnchored_of_ne_nil hkept hbody, ← List.append_assoc, lead_append_anchorOf]
    rw [hend, relativeTo?_of_segments (text_ofAnchored_ne hkept hmoves) hp hsegments,
      dropWhile_isIdle_names hfront, List.map_append, List.map_singleton,
      dropIdleEnd_append hlast.not_isIdle]

end Parents

end Path

end ApiCatalog
