import ApiCatalog.Yaml.Token
import ApiCatalog.Proofs.Text
import ApiCatalog.Proofs.Yaml.Quoted

namespace ApiCatalog.Yaml

theorem Cursor.skip_of_not_isBreak {c : Cursor} {text rest : List Char}
    (htext : ∀ ch ∈ text, isBreak ch = false) (h : c.rest = text ++ rest) :
    c.skip text.length =
      ⟨rest, c.index + text.length, c.line, c.column + text.length⟩ := by
  induction text generalizing c with
  | nil =>
      obtain ⟨_, index, line, column⟩ := c
      rw [List.length_nil, Cursor.skip, Nat.add_zero, Nat.add_zero, ← show _ = rest from h]
  | cons ch more ih =>
      have hnext : c.next = ⟨more ++ rest, c.index + 1, c.line, c.column + 1⟩ := by
        rw [Cursor.next, h]
        simp [htext ch List.mem_cons_self]
      rw [List.length_cons, Cursor.skip, ih (fun d hd => htext d (List.mem_cons_of_mem ch hd))
        (by rw [hnext]), hnext]
      simp only [Cursor.mk.injEq, true_and]
      omega

namespace Scanner

-- The scanner stands at its next token, blocks that end there closed.
def settled? (s : Scanner) : Option Scanner :=
  (skipToToken (s.cursor.rest.length + 1) s).dropStale?.map
    fun s => s.closeBlocks (some s.cursor.column)

theorem run_succ (fuel : Nat) (s : Scanner) :
    run (fuel + 1) s = s.settled?.bind fun s => match s.cursor.rest with
      | [] => s.finish?
      | c :: rest => (s.fetch? c rest).bind (run fuel) := by
  rw [run, settled?, Option.bind_map]
  rfl

-- A run goes from one state through another, in no more steps than it passes
-- characters.
def Reaches (s s' : Scanner) : Prop :=
  ∃ n, n + s'.cursor.rest.length ≤ s.cursor.rest.length ∧ ∀ fuel, run (fuel + n) s = run fuel s'

variable {s s' s'' : Scanner}

theorem Reaches.refl (s : Scanner) : Reaches s s := ⟨0, by omega, fun _ => rfl⟩

theorem Reaches.trans (h : Reaches s s') (h' : Reaches s' s'') : Reaches s s'' := by
  obtain ⟨n, hlength, hrun⟩ := h
  obtain ⟨n', hlength', hrun'⟩ := h'
  refine ⟨n' + n, by omega, fun fuel => ?_⟩
  rw [← Nat.add_assoc, hrun, hrun']

theorem reaches_of_fetch? {at_ : Scanner} {c : Char} {rest : List Char}
    (hsettled : s.settled? = some at_) (hrest : at_.cursor.rest = c :: rest)
    (hfetch : at_.fetch? c rest = some s')
    (hlength : s'.cursor.rest.length < s.cursor.rest.length) : Reaches s s' := by
  refine ⟨1, by omega, fun fuel => ?_⟩
  rw [run_succ, hsettled, Option.bind_some, hrest]
  simp only [hfetch, Option.bind_some]

-- At the start of a line outside brackets, the tokens before it in the order of
-- the text.
def lineStart (c : Cursor) (written : List Token) (indents : List Nat) : Scanner where
  cursor := c
  tokens := written.reverse
  indents := indents

section Skipping

-- Characters at which a token may start in any place.
def isTokenStart (c : Char) : Bool :=
  !isBlankOrBreak c && c != '#' && c != Char.ofNat 0xFEFF

theorem isTokenStart_head? {ch : Char} (h : isTokenStart ch) (rest : List Char) :
    ∀ d ∈ (ch :: rest).head?, isTokenStart d := by
  intro d hd
  cases hd
  exact h

-- Spaces in front of a token, or at the end, are passed.
theorem skipToToken_spaces {fuel n : Nat} {tail : List Char}
    (htail : ∀ c ∈ tail.head?, isTokenStart c)
    (h : s.cursor.rest = List.replicate n ' ' ++ tail) :
    skipToToken (fuel + 1) s = { s with cursor := s.cursor.skip n } := by
  have hafter : (s.cursor.skip n).rest = tail := by
    rw [Cursor.rest_skip, h]
    simp
  have hhead : s.cursor.rest.head? ≠ some (Char.ofNat 0xFEFF) := by
    rw [h]
    cases n with
    | zero =>
        intro hmark
        exact absurd (htail _ hmark) (by decide)
    | succ n => simp [List.replicate_succ]
  have htake : ∀ tabs : Bool,
      s.cursor.takeWhile (fun ch => ch == ' ' || (tabs && ch == '\t')) = List.replicate n ' ' := by
    intro tabs
    have hstop : tail.takeWhile (fun ch => ch == ' ' || (tabs && ch == '\t')) = [] := by
      cases tail with
      | nil => rfl
      | cons c rest =>
          have hc := htail c rfl
          simp only [isTokenStart, isBlankOrBreak, isBlank, Bool.and_eq_true, Bool.not_eq_true',
            Bool.or_eq_false_iff] at hc
          simp [hc.1.1.1.1, hc.1.1.1.2]
    rw [Cursor.takeWhile, h, List.takeWhile_append_of_pos (by simp), hstop, List.append_nil]
  rw [skipToToken]
  simp only [hhead, beq_iff_eq, Bool.and_eq_true, and_false, if_false, Cursor.skipWhile, htake,
    List.length_replicate, hafter]
  cases tail with
  | nil => simp [hafter]
  | cons c rest =>
      have hc := htail c rfl
      simp only [isTokenStart, isBlankOrBreak, Bool.and_eq_true, Bool.not_eq_true',
        Bool.or_eq_false_iff, bne_iff_ne] at hc
      simp [hafter, hc.1.2, hc.1.1.2]

theorem skipToToken_newline {fuel : Nat} {rest : List Char} (hflow : s.inFlow = false)
    (h : s.cursor.rest = '\n' :: rest) :
    skipToToken (fuel + 1) s =
      skipToToken fuel { s with cursor := s.cursor.next, keyAllowed := true } := by
  have htake : ∀ tabs : Bool,
      s.cursor.takeWhile (fun ch => ch == ' ' || (tabs && ch == '\t')) = [] := by
    intro tabs
    simp [Cursor.takeWhile, h]
  rw [skipToToken]
  simp [h, Cursor.skipWhile, htake, Cursor.skip, hflow, show isBreak '\n' = true from rfl]

theorem settled?_lineStart {c : Cursor} {written : List Token} {indents : List Nat} {n : Nat}
    {tail : List Char} (htail : ∀ ch ∈ tail.head?, isTokenStart ch)
    (h : c.rest = List.replicate n ' ' ++ tail) :
    (lineStart c written indents).settled? =
      some ((lineStart (c.skip n) written indents).closeBlocks (some (c.skip n).column)) := by
  rw [settled?, skipToToken_spaces htail h]
  rfl

-- A line ends, and what was no key before its end never will be one.
theorem reaches_newline {n : Nat} {tail : List Char} {candidate : Option Candidate}
    (htail : ∀ ch ∈ tail.head?, isTokenStart ch)
    (h : s.cursor.rest = '\n' :: (List.replicate n ' ' ++ tail))
    (hcandidates : s.candidates = [candidate])
    (hcandidate : ∀ k ∈ candidate, k.required = false ∧ k.line ≤ s.cursor.line) :
    Reaches s (lineStart s.cursor.next s.tokens.reverse s.indents) := by
  have hnext : s.cursor.next.rest = List.replicate n ' ' ++ tail := by
    rw [Cursor.rest_next, h]
    rfl
  have hline : s.cursor.next.line = s.cursor.line + 1 := by
    rw [Cursor.next, h]
    rfl
  have hsettled : s.settled? =
      (lineStart s.cursor.next s.tokens.reverse s.indents).settled? := by
    rw [settled?_lineStart htail hnext, settled?, skipToToken_newline (by simp [inFlow, hcandidates]) h,
      h, List.length_cons, skipToToken_spaces htail hnext]
    have hstale := Cursor.line_le_skip s.cursor.next n
    have hdrop : dropStale? { s with cursor := s.cursor.next.skip n, keyAllowed := true } =
        some (lineStart (s.cursor.next.skip n) s.tokens.reverse s.indents) := by
      unfold dropStale? lineStart
      rw [hcandidates]
      cases candidate with
      | none => simp
      | some k =>
          obtain ⟨hrequired, hle⟩ := hcandidate k rfl
          have hlt : k.line < (s.cursor.next.skip n).line := by omega
          simp [isStale, hlt, hrequired]
    rw [hdrop]
    rfl
  refine ⟨0, by change 0 + s.cursor.next.rest.length ≤ _; rw [hnext, h]; simp, fun fuel => ?_⟩
  cases fuel with
  | zero => rfl
  | succ fuel => rw [Nat.add_zero, run_succ, run_succ, hsettled]

end Skipping

section Words

theorem beq_eq_false_of_isAlpha {c : Char} (hc : c.isAlpha) {d : Char} (hd : d.isAlpha = false) :
    (c == d) = false := by
  rw [beq_eq_false_iff_ne]
  rintro rfl
  rw [hc] at hd
  cases hd

theorem isBlankOrBreak_of_isAlpha {c : Char} (hc : c.isAlpha) : isBlankOrBreak c = false := by
  have hrange := Text.toNat_of_isAlpha hc
  have hline : (c.toNat == 0x2028) = false := beq_eq_false_iff_ne.2 (by omega)
  have hparagraph : (c.toNat == 0x2029) = false := beq_eq_false_iff_ne.2 (by omega)
  simp [isBlankOrBreak, isBlank, isBreak, beq_eq_false_of_isAlpha hc, hline, hparagraph]

theorem isTokenStart_of_isAlpha {c : Char} (hc : c.isAlpha) : isTokenStart c := by
  have hmark : c ≠ Char.ofNat 0xFEFF := by
    rintro rfl
    exact absurd hc (by decide)
  have hcomment : c ≠ '#' := by
    rintro rfl
    exact absurd hc (by decide)
  simp [isTokenStart, isBlankOrBreak_of_isAlpha hc, hmark, hcomment]

theorem isReserved_of_isAlpha {c : Char} (hc : c.isAlpha) : isReserved c = false := by
  have hall : ∀ d ∈ ",[]\x7b\x7d#&*!|>'\"%@\x60".toList, d.isAlpha = false := by simp
  rw [isReserved, ← Bool.not_eq_true, List.contains_iff_mem]
  intro hmem
  rw [hall c hmem] at hc
  cases hc

theorem isMarker_of_isAlpha {c : Cursor} {ch : Char} {rest : List Char} (hch : ch.isAlpha)
    (h : c.rest = ch :: rest) : isDocumentStart c = false ∧ isDocumentEnd c = false := by
  have hdash : ('-' == ch) = false := by rw [Bool.beq_comm]; exact beq_eq_false_of_isAlpha hch rfl
  have hdot : ('.' == ch) = false := by rw [Bool.beq_comm]; exact beq_eq_false_of_isAlpha hch rfl
  simp [isDocumentStart, isDocumentEnd, isMarker, h, List.isPrefixOf?, hdash, hdot]

theorem head?_ne_of_isAlpha {c d : Char} {rest : List Char} (hc : c.isAlpha)
    (hd : d.isAlpha = false) : (c :: rest).head? ≠ some d := by
  intro heq
  cases heq
  rw [hc] at hd
  cases hd

-- A letter starts a plain scalar.
theorem fetch?_of_isAlpha {c : Char} {rest : List Char} (hc : c.isAlpha)
    (h : s.cursor.rest = c :: rest) : s.fetch? c rest = s.plainScalar? := by
  have hmarker := isMarker_of_isAlpha hc h
  simp [fetch?, hmarker, beq_eq_false_of_isAlpha hc, isBlankOrBreak_of_isAlpha hc,
    isReserved_of_isAlpha hc]

theorem plainChunk?_eq {word tail : List Char}
    (hword : ∀ c ∈ word, isBlankOrBreak c = false ∧ c ≠ ':')
    (htail : ∀ c ∈ tail.head?, isBlankOrBreak c ∨ c = ':' ∧ endsWord tail.tail) :
    plainChunk? false (word ++ tail) = some word := by
  induction word with
  | nil =>
      cases tail with
      | nil => rfl
      | cons c rest =>
          rcases htail c rfl with hblank | ⟨rfl, hends⟩
          · simp [plainChunk?, hblank]
          · have hends : endsWord rest := hends
            simp [plainChunk?, hends]
  | cons c rest ih =>
      obtain ⟨hblank, hcolon⟩ := hword c List.mem_cons_self
      rw [List.cons_append, plainChunk?, ih fun d hd => hword d (List.mem_cons_of_mem c hd)]
      simp [hblank, hcolon]

variable {c : Cursor} {first : Char} {more rest : List Char}

-- A word up to the colon behind it.
theorem plain?_key {indent : Nat} (hfirst : first.isAlpha)
    (hword : ∀ ch ∈ first :: more, isBlankOrBreak ch = false ∧ ch ≠ ':') (hrest : endsWord rest)
    (h : c.rest = (first :: more) ++ ':' :: rest) :
    plain? false indent c = some ⟨first :: more, c.skip (first :: more).length, false⟩ := by
  have hchunk : plainChunk? false c.rest = some (first :: more) := by
    rw [h]
    refine plainChunk?_eq hword fun ch hch => ?_
    cases hch
    exact .inr ⟨rfl, hrest⟩
  have hhead : c.rest.head? ≠ some '#' := by
    rw [h]
    exact head?_ne_of_isAlpha hfirst rfl
  have hblanks : (c.skip (first :: more).length).takeWhile isBlankOrBreak = [] := by
    rw [Cursor.takeWhile, Cursor.rest_skip, h, List.drop_left]
    rfl
  have hmarker := isMarker_of_isAlpha hfirst h
  rw [plain?, plainFrom]
  simp only [hmarker, hhead, hchunk, hblanks, Bool.or_self, beq_iff_eq, Bool.false_or, if_false,
    Option.bind_some, List.isEmpty_cons, Bool.false_eq_true, List.isEmpty_nil, if_true,
    List.length_nil, List.nil_append, Cursor.skip]
  rfl

-- A word up to the end of its line, where the next line is indented less.
theorem plain?_line {indent : Nat} (hindent : 0 < indent) (hfirst : first.isAlpha)
    (hword : ∀ ch ∈ first :: more, isBlankOrBreak ch = false ∧ ch ≠ ':')
    (hrest : ∀ ch ∈ rest.head?, isBlankOrBreak ch = false)
    (h : c.rest = (first :: more) ++ '\n' :: rest) :
    plain? false indent c =
      some ⟨first :: more, (c.skip (first :: more).length).next, true⟩ := by
  have hchunk : plainChunk? false c.rest = some (first :: more) := by
    rw [h]
    refine plainChunk?_eq hword fun ch hch => ?_
    cases hch
    exact .inl rfl
  have hhead : c.rest.head? ≠ some '#' := by
    rw [h]
    exact head?_ne_of_isAlpha hfirst rfl
  have hskip : (c.skip (first :: more).length).rest = '\n' :: rest := by
    rw [Cursor.rest_skip, h, List.drop_left]
  have hblanks : (c.skip (first :: more).length).takeWhile isBlankOrBreak = ['\n'] := by
    have hstop : rest.takeWhile isBlankOrBreak = [] := by
      cases rest with
      | nil => rfl
      | cons d others => simp [hrest d rfl]
    rw [Cursor.takeWhile, hskip, List.takeWhile_cons_of_pos rfl, hstop]
  have hcolumn : (c.skip (first :: more).length).next.column = 0 := by
    rw [Cursor.column_next hskip]
    rfl
  have hmarker := isMarker_of_isAlpha hfirst h
  rw [plain?, plainFrom]
  simp only [hmarker, hhead, hchunk, hblanks, Bool.or_self, beq_iff_eq, Bool.false_or, if_false,
    Option.bind_some, List.isEmpty_cons, Bool.false_eq_true, List.length_singleton,
    List.nil_append, Cursor.skip]
  have htab : ∀ column, tabInIndent indent column false ['\n'] = false := fun column => rfl
  simp only [htab, hcolumn, hindent, Bool.false_eq_true, if_false, Bool.not_false, Bool.true_and,
    decide_true, if_true]
  rfl

end Words

section Lines

variable {c : Cursor} (written : List Token) {rest : List Char}

-- Behind a colon that made a word a key.
def behindColon (c : Cursor) (written : List Token) : Scanner where
  cursor := c
  tokens := written.reverse
  indents := [0]
  keyAllowed := false

theorem closeBlocks_lineStart {deep base : List Nat} {n : Nat} (hdeep : ∀ d ∈ deep, n < d)
    (hbase : ∀ d ∈ base.head?, d ≤ n) :
    (lineStart c written (deep ++ base)).closeBlocks (some n) =
      lineStart c (written ++ List.replicate deep.length .blockEnd) base := by
  have hclosed : (deep ++ base).takeWhile (fun indent => decide (n < indent)) = deep := by
    have hstop : base.takeWhile (fun indent => decide (n < indent)) = [] := by
      cases base with
      | nil => rfl
      | cons d others => simp [hbase d rfl]
    rw [List.takeWhile_append_of_pos (by simpa using hdeep), hstop, List.append_nil]
  have hflow : (lineStart c written (deep ++ base)).inFlow = false := rfl
  unfold closeBlocks
  rw [hflow]
  simp only [Bool.false_eq_true, if_false]
  simp [lineStart, hclosed]

-- Behind a word that will be a key if a colon follows.
def behindWord (c : Cursor) (word : List Char) (written : List Token) (indents : List Nat) :
    Scanner where
  cursor := c.skip word.length
  tokens := .scalar (String.ofList word) true :: written.reverse
  indents := indents
  keyAllowed := false
  candidates := [some ⟨written.length, c.index, c.line, c.column, indents.head? == some c.column⟩]

theorem reaches_word {word : List Char} {deep base : List Nat} (hword : ∀ ch ∈ word, ch.isAlpha)
    (hne : word ≠ []) (hrest : endsWord rest) (hcolumn : c.column = 0)
    (h : c.rest = word ++ ':' :: rest) (hdeep : ∀ d ∈ deep, 0 < d)
    (hbase : ∀ d ∈ base.head?, d ≤ 0) :
    Reaches (lineStart c written (deep ++ base))
      (behindWord c word (written ++ List.replicate deep.length .blockEnd) base) := by
  obtain ⟨first, more, rfl⟩ := List.exists_cons_of_ne_nil hne
  have hfirst := hword first List.mem_cons_self
  have hstart : ∀ ch ∈ c.rest.head?, isTokenStart ch := by
    rw [h]
    exact isTokenStart_head? (isTokenStart_of_isAlpha hfirst) _
  have hsettled : (lineStart c written (deep ++ base)).settled? =
      some (lineStart c (written ++ List.replicate deep.length .blockEnd) base) := by
    have hline := @settled?_lineStart c written (deep ++ base) 0 c.rest hstart rfl
    rw [Cursor.skip, hcolumn, closeBlocks_lineStart written hdeep hbase] at hline
    exact hline
  have hplain : ∀ ch ∈ first :: more, isBlankOrBreak ch = false ∧ ch ≠ ':' := by
    intro ch hch
    refine ⟨isBlankOrBreak_of_isAlpha (hword ch hch), ?_⟩
    rintro rfl
    exact absurd (hword ':' hch) (by decide)
  refine reaches_of_fetch? hsettled h ?_ ?_
  · rw [fetch?_of_isAlpha hfirst h]
    have hread : ∀ indent, plain? false indent c = _ := fun indent => plain?_key hfirst hplain hrest h
    simp only [plainScalar?, saveCandidate?, dropCandidate?, lineStart, inFlow, hread,
      List.length_singleton, Nat.lt_irrefl, decide_false, if_true, Option.map_some,
      Option.bind_some, emitScalar, emit, behindWord, List.tail_cons, List.length_reverse,
      Bool.not_false, Bool.true_and]
  · change (c.skip _).rest.length < c.rest.length
    rw [Cursor.rest_skip, List.length_drop, h, List.length_append, List.length_cons,
      List.length_cons]
    omega

-- A word at the column of the mapping around it becomes a key, and the first
-- one opens that mapping.
theorem reaches_colon {word : List Char} {base : List Nat} (hword : ∀ ch ∈ word, isBreak ch = false)
    (hshort : word.length ≤ 1024) (hrest : endsWord rest) (hcolumn : c.column = 0)
    (h : c.rest = word ++ ':' :: rest) (hbase : base = [] ∨ base = [0]) :
    Reaches (behindWord c word written base)
      (behindColon (c.skip (word.length + 1))
        (written ++ (if base = [] then [.blockMappingStart] else []) ++
          [.key, .scalar (String.ofList word) true, .value])) := by
  have hskip := Cursor.skip_of_not_isBreak hword h
  have hcursor : (behindWord c word written base).cursor.rest = ':' :: rest := by
    rw [behindWord, hskip]
  have hsettled : (behindWord c word written base).settled? =
      some (behindWord c word written base) := by
    have hstart := isTokenStart_head? (show isTokenStart ':' from rfl) rest
    have hfresh : ¬ c.index + 1024 < c.index + word.length := by omega
    rw [settled?, @skipToToken_spaces _ _ 0 _ hstart hcursor]
    rcases hbase with rfl | rfl <;>
      simp [behindWord, Cursor.skip, dropStale?, isStale, hskip, hfresh, closeBlocks, inFlow]
  refine reaches_of_fetch? hsettled hcursor ?_ ?_
  · have hnext : (c.skip word.length).next = c.skip (word.length + 1) := by
      rw [Cursor.skip_add]
      rfl
    have hmarker : isDocumentStart (c.skip word.length) = false ∧
        isDocumentEnd (c.skip word.length) = false := by
      simp [isDocumentStart, isDocumentEnd, isMarker, hskip, List.isPrefixOf?]
    have hfetch : (behindWord c word written base).fetch? ':' rest =
        (behindWord c word written base).value? := by
      simp [fetch?, behindWord, hmarker, hrest]
    rw [hfetch]
    rcases hbase with rfl | rfl
    · simp [value?, behindWord, behindColon, insertAt, openBlock, inFlow, emit, hcolumn, hnext]
      rw [show written.length + 1 + 1 - written.length = 2 by omega]
      rfl
    · simp [value?, behindWord, behindColon, insertAt, openBlock, inFlow, emit, hcolumn, hnext]
  · change (c.skip _).rest.length < (c.skip _).rest.length
    rw [Cursor.rest_skip, Cursor.rest_skip, List.length_drop, List.length_drop, h,
      List.length_append, List.length_cons]
    omega

theorem reaches_key {word : List Char} {deep base : List Nat} (hword : word.all Char.isAlpha)
    (hne : word ≠ []) (hshort : word.length ≤ 1024) (hrest : endsWord rest) (hcolumn : c.column = 0)
    (h : c.rest = word ++ ':' :: rest) (hdeep : ∀ d ∈ deep, 0 < d)
    (hbase : base = [] ∨ base = [0]) :
    Reaches (lineStart c written (deep ++ base))
      (behindColon (c.skip (word.length + 1))
        (written ++ List.replicate deep.length .blockEnd ++
          (if base = [] then [.blockMappingStart] else []) ++
          [.key, .scalar (String.ofList word) true, .value])) := by
  have hword := List.all_eq_true.1 hword
  have hlow : ∀ d ∈ base.head?, d ≤ 0 := by
    rcases hbase with rfl | rfl
    · simp
    · simp
  have hunbroken : ∀ ch ∈ word, isBreak ch = false :=
    fun ch hch => (Bool.or_eq_false_iff.1 (isBlankOrBreak_of_isAlpha (hword ch hch))).2
  exact (reaches_word written hword hne hrest hcolumn h hdeep hlow).trans
    (reaches_colon _ hunbroken hshort hrest hcolumn h hbase)

-- Spaces, and then a token or the end.
def StartsLine (rest : List Char) : Prop :=
  ∃ n tail, rest = List.replicate n ' ' ++ tail ∧ ∀ ch ∈ tail.head?, isTokenStart ch

-- A key on a line of its own.
theorem reaches_heading {word : List Char} {deep base : List Nat}
    (hword : word.all Char.isAlpha) (hne : word ≠ []) (hshort : word.length ≤ 1024)
    (hrest : StartsLine rest) (hcolumn : c.column = 0) (h : c.rest = word ++ ':' :: '\n' :: rest)
    (hdeep : ∀ d ∈ deep, 0 < d) (hbase : base = [] ∨ base = [0]) :
    ∃ c' : Cursor, c'.rest = rest ∧ c'.column = 0 ∧
      Reaches (lineStart c written (deep ++ base))
        (lineStart c' (written ++ List.replicate deep.length .blockEnd ++
          (if base = [] then [.blockMappingStart] else []) ++
          [.key, .scalar (String.ofList word) true, .value]) [0]) := by
  obtain ⟨n, tail, rfl, htail⟩ := hrest
  have hkey := reaches_key written hword hne hshort rfl hcolumn h hdeep hbase
  generalize written ++ List.replicate deep.length .blockEnd ++
    (if base = [] then [.blockMappingStart] else []) ++
    [.key, .scalar (String.ofList word) true, .value] = written' at hkey ⊢
  have hafter : (c.skip (word.length + 1)).rest = '\n' :: (List.replicate n ' ' ++ tail) := by
    rw [Cursor.rest_skip, h, List.drop_append]
    simp
  have hline := reaches_newline (s := behindColon (c.skip (word.length + 1)) written') htail hafter
    rfl fun k hk => by cases hk
  rw [behindColon, List.reverse_reverse] at hline
  refine ⟨(c.skip (word.length + 1)).next, ?_, ?_, hkey.trans hline⟩
  · rw [Cursor.rest_next, hafter]
    rfl
  · rw [Cursor.column_next hafter]
    rfl

-- A value of one word on the line of its key.
theorem reaches_value {first : Char} {more : List Char} (hfirst : first.isAlpha)
    (hword : (first :: more).all fun ch => isBlankOrBreak ch = false ∧ ch ≠ ':')
    (hrest : ∀ ch ∈ rest.head?, isBlankOrBreak ch = false)
    (h : c.rest = ' ' :: ((first :: more) ++ '\n' :: rest)) :
    ∃ c' : Cursor, c'.rest = rest ∧ c'.column = 0 ∧
      Reaches (behindColon c written)
        (lineStart c' (written ++ [.scalar (String.ofList (first :: more)) true]) [0]) := by
  have hnext : c.next.rest = (first :: more) ++ '\n' :: rest := by rw [Cursor.rest_next, h]; rfl
  have hafter : (c.next.skip (first :: more).length).rest = '\n' :: rest := by
    rw [Cursor.rest_skip, hnext, List.drop_left]
  have hword : ∀ ch ∈ first :: more, isBlankOrBreak ch = false ∧ ch ≠ ':' :=
    fun ch hch => of_decide_eq_true (List.all_eq_true.1 hword ch hch)
  have hread := plain?_line Nat.zero_lt_one hfirst hword hrest hnext
  generalize c.next.skip (first :: more).length = last at hafter hread
  have hlast : last.next.rest = rest := by rw [Cursor.rest_next, hafter]; rfl
  have hsettled : (behindColon c written).settled? = some (behindColon c.next written) := by
    have hstart := isTokenStart_head? (isTokenStart_of_isAlpha hfirst) (more ++ '\n' :: rest)
    rw [settled?, @skipToToken_spaces _ _ 1 _ hstart h]
    simp [behindColon, Cursor.skip, dropStale?, closeBlocks, inFlow]
  refine ⟨last.next, hlast, ?_, reaches_of_fetch? hsettled hnext ?_ ?_⟩
  · rw [Cursor.column_next hafter]
    rfl
  · rw [fetch?_of_isAlpha hfirst hnext]
    simp [plainScalar?, saveCandidate?, behindColon, inFlow, hread, emitScalar, emit, lineStart]
  · change last.next.rest.length < c.rest.length
    rw [hlast, h]
    simp
    omega

-- Behind the dash of an item two columns in.
def behindDash (c : Cursor) (written : List Token) : Scanner where
  cursor := c
  tokens := written.reverse
  indents := [2, 0]

-- The first dash below a key opens a sequence.
theorem reaches_dash {indents : List Nat} (hcolumn : c.column = 0)
    (h : c.rest = ' ' :: ' ' :: '-' :: ' ' :: rest) (hindents : indents = [0] ∨ indents = [2, 0]) :
    Reaches (lineStart c written indents)
      (behindDash (c.skip 3)
        (written ++ (if indents = [0] then [.blockSequenceStart] else []) ++ [.blockEntry])) := by
  have hstart := isTokenStart_head? (show isTokenStart '-' from rfl) (' ' :: rest)
  have hskip : c.skip 2 = ⟨'-' :: ' ' :: rest, c.index + 2, c.line, c.column + 2⟩ :=
    @Cursor.skip_of_not_isBreak c [' ', ' '] ('-' :: ' ' :: rest) (by simp [isBreak]) h
  have hsettled : (lineStart c written indents).settled? =
      some (lineStart (c.skip 2) written indents) := by
    rw [@settled?_lineStart c written indents 2 _ hstart h]
    rcases hindents with rfl | rfl <;> simp [lineStart, closeBlocks, inFlow, hskip, hcolumn]
  refine reaches_of_fetch? hsettled (by rw [lineStart, hskip]) ?_ ?_
  · have hmarker : isDocumentStart (c.skip 2) = false ∧ isDocumentEnd (c.skip 2) = false := by
      simp [isDocumentStart, isDocumentEnd, isMarker, hskip]
    have hcolumn' : (c.skip 2).column = 2 := by rw [hskip, hcolumn]
    have hnext : (c.skip 2).next = c.skip 3 := rfl
    have hfetch : (lineStart (c.skip 2) written indents).fetch? '-' (' ' :: rest) =
        blockEntry? (lineStart (c.skip 2) written indents) := by
      simp [fetch?, lineStart, hmarker, endsWord, show isBlankOrBreak ' ' = true from rfl]
    rw [hfetch]
    rcases hindents with rfl | rfl
    · simp [ blockEntry?, blockMark?, openBlock, insertAt, dropCandidate?, emit, inFlow, lineStart,
        behindDash, hcolumn', hnext]
    · simp [ blockEntry?, blockMark?, openBlock, dropCandidate?, emit, inFlow, lineStart, behindDash,
        hcolumn', hnext]
  · change (c.skip _).rest.length < c.rest.length
    rw [Cursor.rest_skip, List.length_drop, h]
    simp

theorem behindDash_cursor (hcolumn : c.column = 0) (h : c.rest = ' ' :: ' ' :: '-' :: rest) :
    (c.skip 3).rest = rest ∧ 2 < (c.skip 3).column := by
  have hskip : c.skip 3 = ⟨rest, c.index + 3, c.line, c.column + 3⟩ :=
    @Cursor.skip_of_not_isBreak c [' ', ' ', '-'] rest (by simp [isBreak]) h
  rw [hskip, hcolumn]
  exact ⟨rfl, by simp⟩

-- Behind an item in quotes, which began at the cursor `c`.
def behindItem (c : Cursor) (read : ScalarRead) (written : List Token) : Scanner where
  cursor := read.after
  tokens := .scalar (String.ofList read.text) false :: written.reverse
  indents := [2, 0]
  keyAllowed := false
  candidates := [some ⟨written.length, c.index, c.line, c.column, false⟩]

theorem run_behindDash {fuel : Nat} (hcolumn : 2 < c.column) (h : c.rest = ' ' :: '"' :: rest) :
    run (fuel + 1) (behindDash c written) =
      (quoted? false c.next).bind fun read => run fuel (behindItem c.next read written) := by
  have hstart := isTokenStart_head? (show isTokenStart '"' from rfl) rest
  have hnext : c.next = ⟨'"' :: rest, c.index + 1, c.line, c.column + 1⟩ :=
    @Cursor.skip_of_not_isBreak c [' '] ('"' :: rest) (by simp [isBreak]) h
  have hsettled : (behindDash c written).settled? = some (behindDash c.next written) := by
    have hclosed : ¬ c.column + 1 < 2 := by omega
    rw [settled?, @skipToToken_spaces _ _ 1 _ hstart h]
    simp [behindDash, Cursor.skip, dropStale?, closeBlocks, inFlow, hnext, hclosed]
  have hmarker : isDocumentStart c.next = false ∧ isDocumentEnd c.next = false := by
    simp [isDocumentStart, isDocumentEnd, isMarker, hnext]
  have hfetch : (behindDash c.next written).fetch? '"' rest =
      (behindDash c.next written).quotedScalar? false := by
    simp [fetch?, behindDash, hmarker]
  have hrequired : (2 == c.next.column) = false := by
    rw [beq_eq_false_iff_ne, hnext]
    change 2 ≠ c.column + 1
    omega
  have hcursor : (behindDash c.next written).cursor.rest = '"' :: rest := by rw [behindDash, hnext]
  rw [run_succ, hsettled, Option.bind_some, hcursor]
  simp only [hfetch]
  cases hquoted : quoted? false c.next with
  | none => simp [quotedScalar?, saveCandidate?, dropCandidate?, behindDash, hquoted]
  | some read =>
      simp [quotedScalar?, saveCandidate?, dropCandidate?, behindDash, inFlow, hquoted, emitScalar,
        emit, behindItem, hrequired]

theorem reaches_item {text : List Char} (htext : Quotable text) (hrest : StartsLine rest)
    (hcolumn : 2 < c.column) (h : c.rest = ' ' :: '"' :: (text ++ '"' :: '\n' :: rest)) :
    ∃ c' : Cursor, c'.rest = rest ∧ c'.column = 0 ∧
      Reaches (behindDash c written)
        (lineStart c' (written ++ [.scalar (String.ofList text) false]) [2, 0]) := by
  obtain ⟨n, tail, rfl, htail⟩ := hrest
  have hnext : c.next.rest = '"' :: (text ++ '"' :: '\n' :: (List.replicate n ' ' ++ tail)) := by
    rw [Cursor.rest_next, h]
    rfl
  have hread := htext.quoted?_eq hnext
  have hafter : (c.next.skip (text.length + 2)).rest = '\n' :: (List.replicate n ' ' ++ tail) := by
    rw [Cursor.rest_skip, hnext]
    simp
  have hitem : Reaches (behindDash c written)
      (behindItem c.next ⟨text, c.next.skip (text.length + 2), false⟩ written) := by
    refine ⟨1, ?_, fun fuel => ?_⟩
    · change 1 + (c.next.skip _).rest.length ≤ c.rest.length
      rw [hafter, h]
      simp
      omega
    · rw [run_behindDash written hcolumn h, hread, Option.bind_some]
  have hline := reaches_newline (s := behindItem c.next ⟨text, c.next.skip (text.length + 2), false⟩
    written) htail hafter rfl fun k hk => by
      cases hk
      exact ⟨rfl, Cursor.line_le_skip _ _⟩
  refine ⟨(c.next.skip (text.length + 2)).next, ?_, ?_, ?_⟩
  · rw [Cursor.rest_next, hafter]
    rfl
  · rw [Cursor.column_next hafter]
    rfl
  · have htokens : (behindItem c.next ⟨text, c.next.skip (text.length + 2), false⟩
        written).tokens.reverse = written ++ [.scalar (String.ofList text) false] := by
      simp [behindItem]
    rw [htokens] at hline
    exact hitem.trans hline

-- The tokens of some items in quotes.
def itemTokens (texts : List (List Char)) : List Token :=
  texts.flatMap fun text => [.blockEntry, .scalar (String.ofList text) false]

-- How an item is written.
def item (text : List Char) : List Char := ' ' :: ' ' :: '-' :: ' ' :: '"' :: (text ++ ['"', '\n'])

theorem startsLine_dash (rest : List Char) : StartsLine (' ' :: ' ' :: '-' :: rest) :=
  ⟨2, '-' :: rest, rfl, isTokenStart_head? rfl rest⟩

theorem startsLine_items {texts : List (List Char)} (hrest : StartsLine rest) :
    StartsLine (texts.flatMap item ++ rest) := by
  cases texts with
  | nil => exact hrest
  | cons text more => exact startsLine_dash _

theorem reaches_items {texts : List (List Char)} (htexts : ∀ text ∈ texts, Quotable text)
    (hrest : StartsLine rest) (hcolumn : c.column = 0)
    (h : c.rest = texts.flatMap item ++ rest) :
    ∃ c' : Cursor, c'.rest = rest ∧ c'.column = 0 ∧
      Reaches (lineStart c written [2, 0]) (lineStart c' (written ++ itemTokens texts) [2, 0]) := by
  induction texts generalizing c written with
  | nil =>
      refine ⟨c, h, hcolumn, ?_⟩
      rw [itemTokens, List.flatMap_nil, List.append_nil]
      exact .refl _
  | cons text more ih =>
      have hitem : c.rest = ' ' :: ' ' :: '-' :: ' ' :: '"' ::
          (text ++ '"' :: '\n' :: (more.flatMap item ++ rest)) := by
        rw [h]
        simp [item]
      obtain ⟨c', hc', hcolumn', hreaches⟩ := reaches_item
        (written ++ [.blockEntry]) (htexts text List.mem_cons_self)
        (startsLine_items hrest) (behindDash_cursor hcolumn hitem).2
        (behindDash_cursor hcolumn hitem).1
      obtain ⟨c'', hc'', hcolumn'', hreaches'⟩ := ih
        (written ++ [.blockEntry] ++ [.scalar (String.ofList text) false])
        (fun other hother => htexts other (List.mem_cons_of_mem text hother)) hcolumn' hc'
      refine ⟨c'', hc'', hcolumn'', ?_⟩
      have hdash := reaches_dash written hcolumn hitem (.inr rfl)
      rw [if_neg (by simp), List.append_nil] at hdash
      have hwritten : written ++ itemTokens (text :: more) =
          written ++ [.blockEntry] ++ [.scalar (String.ofList text) false] ++ itemTokens more := by
        simp [itemTokens]
      rw [hwritten]
      exact (hdash.trans hreaches).trans hreaches'

-- Behind the dash of the last of some items, the first of which opens a
-- sequence.
theorem reaches_last_dash {texts : List (List Char)} (htexts : ∀ text ∈ texts, Quotable text)
    (hcolumn : c.column = 0)
    (h : c.rest = texts.flatMap item ++ ' ' :: ' ' :: '-' :: ' ' :: rest) :
    ∃ c' : Cursor, c'.rest = ' ' :: rest ∧ 2 < c'.column ∧
      Reaches (lineStart c written [0])
        (behindDash c' (written ++ .blockSequenceStart :: itemTokens texts ++ [.blockEntry])) := by
  cases texts with
  | nil =>
      refine ⟨_, (behindDash_cursor hcolumn h).1, (behindDash_cursor hcolumn h).2, ?_⟩
      have hdash := reaches_dash written hcolumn h (.inl rfl)
      simpa [itemTokens] using hdash
  | cons text more =>
      have hstarts := startsLine_dash (' ' :: rest)
      have hitem : c.rest = ' ' :: ' ' :: '-' :: ' ' :: '"' ::
          (text ++ '"' :: '\n' :: (more.flatMap item ++ ' ' :: ' ' :: '-' :: ' ' :: rest)) := by
        rw [h]
        simp [item]
      have hfirst := reaches_dash written hcolumn hitem (.inl rfl)
      obtain ⟨c₁, hc₁, hcolumn₁, hreaches₁⟩ := reaches_item
        (written ++ [.blockSequenceStart] ++ [.blockEntry]) (htexts text List.mem_cons_self)
        (startsLine_items hstarts) (behindDash_cursor hcolumn hitem).2
        (behindDash_cursor hcolumn hitem).1
      obtain ⟨c₂, hc₂, hcolumn₂, hreaches₂⟩ := reaches_items
        (written ++ [.blockSequenceStart] ++ [.blockEntry] ++ [.scalar (String.ofList text) false])
        (fun other hother => htexts other (List.mem_cons_of_mem text hother)) hstarts hcolumn₁ hc₁
      refine ⟨_, (behindDash_cursor hcolumn₂ hc₂).1, (behindDash_cursor hcolumn₂ hc₂).2, ?_⟩
      have hlast := reaches_dash (written ++ [.blockSequenceStart] ++ [.blockEntry] ++
        [.scalar (String.ofList text) false] ++ itemTokens more) hcolumn₂ hc₂ (.inr rfl)
      have hall := ((hfirst.trans hreaches₁).trans hreaches₂).trans hlast
      simpa [itemTokens] using hall

theorem reaches_sequence {texts : List (List Char)} (htexts : ∀ text ∈ texts, Quotable text)
    (hne : texts ≠ []) (hrest : StartsLine rest) (hcolumn : c.column = 0)
    (h : c.rest = texts.flatMap item ++ rest) :
    ∃ c' : Cursor, c'.rest = rest ∧ c'.column = 0 ∧
      Reaches (lineStart c written [0])
        (lineStart c' (written ++ .blockSequenceStart :: itemTokens texts) [2, 0]) := by
  obtain ⟨front, last, rfl⟩ := (List.eq_nil_or_concat' texts).resolve_left hne
  have hdash : c.rest = front.flatMap item ++
      ' ' :: ' ' :: '-' :: ' ' :: '"' :: (last ++ '"' :: '\n' :: rest) := by
    rw [h]
    simp [item]
  obtain ⟨c₁, hc₁, hcolumn₁, hreaches₁⟩ := reaches_last_dash written
    (fun text htext => htexts text (List.mem_append_left _ htext)) hcolumn hdash
  obtain ⟨c₂, hc₂, hcolumn₂, hreaches₂⟩ := reaches_item
    (written ++ .blockSequenceStart :: itemTokens front ++ [.blockEntry]) (htexts last (by simp))
    hrest hcolumn₁ hc₁
  refine ⟨c₂, hc₂, hcolumn₂, ?_⟩
  have hall := hreaches₁.trans hreaches₂
  simpa [itemTokens] using hall

-- At the end all blocks are closed.
theorem run_of_reaches_end (hcolumn : c.column = 0) (h : c.rest = [])
    (hreaches : Reaches s (lineStart c written [2, 0])) :
    (run (s.cursor.rest.length + 1) s).map (·.tokens.reverse) =
      some (written ++ [.blockEnd, .blockEnd]) := by
  obtain ⟨n, hlength, hrun⟩ := hreaches
  obtain ⟨fuel, hfuel⟩ := Nat.exists_eq_add_of_le' (Nat.le_of_add_right_le hlength)
  have hsettled := @settled?_lineStart c written [2, 0] 0 [] (by simp) h
  rw [hfuel, show fuel + n + 1 = fuel + 1 + n by omega, hrun, run_succ, hsettled]
  simp [lineStart, closeBlocks, inFlow, Cursor.skip, hcolumn, h, finish?, dropCandidate?]

end Lines

end Scanner

end ApiCatalog.Yaml
