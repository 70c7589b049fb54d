import ApiCatalog.Json.Printer
import ApiCatalog.Json.Reader
import Mathlib.Data.List.TakeWhile

namespace ApiCatalog.Json

-- A value that can be written: the literal of every number in it is a number.
inductive Wellformed : Json → Prop where
  | null : Wellformed null
  | bool (value : Bool) : Wellformed (bool value)
  | number (literal : String) (h : isNumber literal.toList) : Wellformed (number literal)
  | string (value : String) : Wellformed (string value)
  | array (items : List Json) (h : ∀ item ∈ items, Wellformed item) : Wellformed (array items)
  | object (members : List (String × Json)) (h : ∀ m ∈ members, Wellformed m.2) :
      Wellformed (object members)

mutual

def tokens : Json → List Token
  | null => [.scalar null]
  | bool value => [.scalar (bool value)]
  | number literal => [.scalar (number literal)]
  | string value => [.string value]
  | array [] => [.openArray, .closeArray]
  | array (item :: items) => .openArray :: tokens item ++ itemTokens items
  | object [] => [.openObject, .closeObject]
  | object ((name, value) :: members) =>
      .openObject :: .string name :: .colon :: tokens value ++ memberTokens members

-- The tokens of the items after the first, and of the bracket that closes them.
def itemTokens : List Json → List Token
  | [] => [.closeArray]
  | item :: items => .comma :: tokens item ++ itemTokens items

def memberTokens : List (String × Json) → List Token
  | [] => [.closeObject]
  | (name, value) :: members =>
      .comma :: .string name :: .colon :: tokens value ++ memberTokens members

end

section Strings

-- Stands for itself between quotes.
def isPlain (c : Char) : Prop := c ≠ '"' ∧ c ≠ '\\' ∧ ¬ c.toNat < 32

theorem isPlain_hexDigit {n : Nat} (h : n < 16) : isPlain (hexDigit n) := by
  have hall : ∀ n < 16, hexDigit n ≠ '"' ∧ hexDigit n ≠ '\\' ∧ ¬ (hexDigit n).toNat < 32 := by
    decide
  exact hall n h

theorem hexCode?_hexDigit {n : Nat} (h : n < 32) :
    hexCode? ['0', '0', hexDigit (n / 16), hexDigit (n % 16)] = some n := by
  have hall : ∀ n < 32, hexCode? ['0', '0', hexDigit (n / 16), hexDigit (n % 16)] = some n := by
    decide
  exact hall n h

-- The three ways in which a character is written.
theorem escapeChar_cases (c : Char) :
    (escapeChar c = [c] ∧ isPlain c) ∨
    (∃ d, escapeChar c = ['\\', d] ∧ d ≠ 'u' ∧ simpleEscape? d = some c) ∨
    (c.toNat < 32 ∧ escapeChar c =
      ['\\', 'u', '0', '0', hexDigit (c.toNat / 16), hexDigit (c.toNat % 16)]) := by
  unfold escapeChar
  split
  · exact .inr (.inl ⟨'"', rfl, by decide, rfl⟩)
  · exact .inr (.inl ⟨'\\', rfl, by decide, rfl⟩)
  · exact .inr (.inl ⟨'n', rfl, by decide, rfl⟩)
  · exact .inr (.inl ⟨'r', rfl, by decide, rfl⟩)
  · exact .inr (.inl ⟨'t', rfl, by decide, rfl⟩)
  · rename_i hquote hbackslash _ _ _
    by_cases hback : c.toNat = 8
    · have hc : c = Char.ofNat 8 := by rw [← hback, Char.ofNat_toNat]
      rw [if_pos hback]
      exact .inr (.inl ⟨'b', rfl, by decide, by rw [hc]; rfl⟩)
    · by_cases hfeed : c.toNat = 12
      · have hc : c = Char.ofNat 12 := by rw [← hfeed, Char.ofNat_toNat]
        rw [if_neg hback, if_pos hfeed]
        exact .inr (.inl ⟨'f', rfl, by decide, by rw [hc]; rfl⟩)
      · rw [if_neg hback, if_neg hfeed]
        by_cases hcontrol : c.toNat < 32
        · exact .inr (.inr ⟨hcontrol, if_pos hcontrol⟩)
        · exact .inl ⟨if_neg hcontrol, hquote, hbackslash, hcontrol⟩

theorem unescape_escapeChar (c : Char) (rest : List Char) :
    unescape .plain none (escapeChar c ++ rest) = (unescape .plain none rest).map (c :: ·) := by
  rcases escapeChar_cases c with ⟨hc, -, hbackslash, -⟩ | ⟨d, hc, hd, hsimple⟩ | ⟨hcontrol, hc⟩
  · rw [hc]
    simp [unescape, hbackslash]
  · rw [hc]
    simp [unescape, hd, hsimple]
  · have hcode := hexCode?_hexDigit hcontrol
    have hunicode : unicodeEscape? none c.toNat = some (none, [c]) := by
      have hlow : ¬ (0xD800 ≤ c.toNat ∧ c.toNat ≤ 0xDBFF) := by omega
      have hhigh : ¬ (0xDC00 ≤ c.toNat ∧ c.toNat ≤ 0xDFFF) := by omega
      simp only [unicodeEscape?, if_neg hlow, if_neg hhigh, Char.ofNat_toNat]
    rw [hc]
    simp [unescape, hcode, hunicode]

theorem unescape_flatMap (s : List Char) :
    unescape .plain none (s.flatMap escapeChar) = some s := by
  induction s with
  | nil => rfl
  | cons c rest ih => rw [List.flatMap_cons, unescape_escapeChar, ih, Option.map_some]

theorem tokens?_plain {c : Char} (h : isPlain c) (passed rest : List Char) :
    tokens? (.text passed) (c :: rest) = tokens? (.text (c :: passed)) rest := by
  obtain ⟨hquote, hbackslash, hcontrol⟩ := h
  rw [tokens?, if_neg hquote, if_neg hbackslash, if_neg hcontrol]

-- A written character never ends the string it stands in.
theorem tokens?_escapeChar (c : Char) (passed rest : List Char) :
    tokens? (.text passed) (escapeChar c ++ rest) =
      tokens? (.text ((escapeChar c).reverse ++ passed)) rest := by
  have hescape : ∀ d more, tokens? (.text passed) ('\\' :: d :: more) =
      tokens? (.text (d :: '\\' :: passed)) more := by
    intro d more
    simp [tokens?]
  rcases escapeChar_cases c with ⟨hc, hplain⟩ | ⟨d, hc, -, -⟩ | ⟨hcontrol, hc⟩
  · rw [hc]
    exact tokens?_plain hplain passed rest
  · rw [hc]
    exact hescape d rest
  · have hzero : isPlain '0' := by unfold isPlain; decide
    have hhigh := isPlain_hexDigit (n := c.toNat / 16) (by omega)
    have hlow := isPlain_hexDigit (n := c.toNat % 16) (by omega)
    rw [hc]
    simp only [List.cons_append, List.nil_append, hescape, tokens?_plain hzero,
      tokens?_plain hhigh, tokens?_plain hlow, List.reverse_cons, List.reverse_nil]

theorem tokens?_flatMap (s passed rest : List Char) :
    tokens? (.text passed) (s.flatMap escapeChar ++ rest) =
      tokens? (.text ((s.flatMap escapeChar).reverse ++ passed)) rest := by
  induction s generalizing passed with
  | nil => rfl
  | cons c s ih =>
      rw [List.flatMap_cons, List.append_assoc, tokens?_escapeChar, ih, List.reverse_append,
        List.append_assoc]

theorem tokens?_quote (s : String) (rest : List Char) :
    tokens? .between (quote s ++ rest) = (tokens? .between rest).map (.string s :: ·) := by
  have hopen : ∀ more, tokens? .between ('"' :: more) = tokens? (.text []) more := by
    intro more
    rfl
  rw [quote, List.cons_append, List.cons_append, List.append_assoc, hopen, tokens?_flatMap]
  simp [tokens?, unescape_flatMap]

end Strings

section Words

def isWordChar (c : Char) : Prop := isSpace c = false ∧ punctuation? c = none

-- A word may end here.
def Ends (rest : List Char) : Prop :=
  ∀ c ∈ rest.head?, isSpace c ∨ ∃ token, punctuation? c = some token

theorem eq_of_isSpace {c : Char} (h : isSpace c) : c = ' ' ∨ c = '\n' ∨ c = '\r' ∨ c = '\t' := by
  simpa [isSpace, or_assoc] using h

theorem tokens?_space {c : Char} (h : isSpace c) (rest : List Char) :
    tokens? .between (c :: rest) = tokens? .between rest := by
  rw [tokens?, if_pos h]

theorem tokens?_punctuation {c : Char} {token : Token} (h : punctuation? c = some token)
    (rest : List Char) :
    tokens? .between (c :: rest) = (tokens? .between rest).map (token :: ·) := by
  have hspace : isSpace c = false := by
    by_contra hspace
    rcases eq_of_isSpace (by simpa using hspace) with rfl | rfl | rfl | rfl <;>
      simp [punctuation?] at h
  have hquote : c ≠ '"' := by
    rintro rfl
    simp [punctuation?] at h
  simp [tokens?, hspace, hquote, h]

theorem tokens?_ends {rest : List Char} (h : Ends rest) (passed : List Char) :
    tokens? (.word passed) rest =
      (wordToken? passed.reverse).bind fun word => (tokens? .between rest).map (word :: ·) := by
  cases rest with
  | nil => cases hword : wordToken? passed.reverse <;> simp [tokens?, hword]
  | cons c rest =>
      by_cases hspace : isSpace c
      · rw [tokens?_space hspace, tokens?, if_pos hspace]
      · obtain ⟨token, htoken⟩ := (h c (by simp)).resolve_left hspace
        rw [tokens?_punctuation htoken, tokens?, if_neg hspace, htoken]
        simp only [Option.map_map]
        rfl

theorem tokens?_word {word : List Char} (hword : ∀ c ∈ word, isWordChar c) {rest : List Char}
    (hrest : Ends rest) (passed : List Char) :
    tokens? (.word passed) (word ++ rest) =
      (wordToken? (passed.reverse ++ word)).bind fun token =>
        (tokens? .between rest).map (token :: ·) := by
  induction word generalizing passed with
  | nil => simpa using tokens?_ends hrest passed
  | cons c word ih =>
      obtain ⟨hspace, hpunctuation⟩ := hword c (by simp)
      have htail := ih (fun d hd => hword d (List.mem_cons_of_mem c hd)) (c :: passed)
      rw [List.cons_append, tokens?]
      simpa [hspace, hpunctuation] using htail

theorem tokens?_between_word {c : Char} {word rest : List Char} {token : Token}
    (hword : ∀ d ∈ c :: word, isWordChar d) (hquote : c ≠ '"') (hrest : Ends rest)
    (htoken : wordToken? (c :: word) = some token) :
    tokens? .between (c :: word ++ rest) = (tokens? .between rest).map (token :: ·) := by
  obtain ⟨hspace, hpunctuation⟩ := hword c (by simp)
  have hread := tokens?_word (fun d hd => hword d (List.mem_cons_of_mem c hd)) hrest [c]
  rw [List.cons_append, tokens?]
  simpa [hspace, hquote, hpunctuation, htoken] using hread

end Words

section Numbers

def isNumberChar (c : Char) : Bool :=
  isDigit c || c == '-' || c == '+' || c == '.' || c == 'e' || c == 'E'

theorem wordToken?_of_isNumber {word : List Char} (h : isNumber word) :
    wordToken? word = some (.scalar (.number (String.ofList word))) := by
  have hnull : word ≠ ['n', 'u', 'l', 'l'] := by
    rintro rfl
    exact absurd h (by decide)
  have htrue : word ≠ ['t', 'r', 'u', 'e'] := by
    rintro rfl
    exact absurd h (by decide)
  have hfalse : word ≠ ['f', 'a', 'l', 's', 'e'] := by
    rintro rfl
    exact absurd h (by decide)
  rw [wordToken?, if_neg hnull, if_neg htrue, if_neg hfalse, if_pos h]

theorem isNumberChar_of_isDigit {c : Char} (h : isDigit c) : isNumberChar c := by
  simp [isNumberChar, h]

theorem isWordChar_of_isNumberChar {c : Char} (h : isNumberChar c) : isWordChar c := by
  constructor
  · by_contra hspace
    rcases eq_of_isSpace (by simpa using hspace) with rfl | rfl | rfl | rfl <;>
      exact absurd h (by decide)
  · unfold punctuation?
    split
    case h_7 => rfl
    all_goals exact absurd h (by decide)

theorem isNumberChar_of_isExponent {word : List Char} (h : isExponent word) :
    ∀ c ∈ word, isNumberChar c := by
  cases word with
  | nil => simp
  | cons e rest =>
      simp only [isExponent, Bool.and_eq_true, Bool.or_eq_true, beq_iff_eq, List.all_eq_true] at h
      obtain ⟨⟨he, -⟩, hdigits⟩ := h
      have hrest : ∀ c ∈ rest, isNumberChar c := by
        split at hdigits
        · rename_i digits
          exact List.forall_mem_cons.2
            ⟨by decide, fun c hc => isNumberChar_of_isDigit (hdigits c hc)⟩
        · rename_i digits
          exact List.forall_mem_cons.2
            ⟨by decide, fun c hc => isNumberChar_of_isDigit (hdigits c hc)⟩
        · exact fun c hc => isNumberChar_of_isDigit (hdigits c hc)
      refine List.forall_mem_cons.2 ⟨?_, hrest⟩
      rcases he with rfl | rfl <;> decide

theorem isNumberChar_of_dropWhile {word : List Char}
    (h : ∀ c ∈ word.dropWhile isDigit, isNumberChar c) : ∀ c ∈ word, isNumberChar c := by
  intro c hc
  rw [← List.takeWhile_append_dropWhile (p := isDigit) (l := word)] at hc
  rcases List.mem_append.1 hc with hdigit | hrest
  · exact isNumberChar_of_isDigit (List.mem_takeWhile_imp hdigit)
  · exact h c hrest

theorem isNumberChar_of_isNumber {word : List Char} (h : isNumber word) :
    ∀ c ∈ word, isNumberChar c := by
  unfold isNumber at h
  extract_lets unsigned whole after wholeFits at h
  have hword : word = unsigned ∨ word = '-' :: unsigned := by
    unfold unsigned
    split
    · exact .inr rfl
    · exact .inl rfl
  have hunsigned : (∀ c ∈ after, isNumberChar c) → ∀ c ∈ unsigned, isNumberChar c :=
    isNumberChar_of_dropWhile
  clear_value after unsigned
  have hafter : ∀ c ∈ after, isNumberChar c := by
    split at h
    · simp only [Bool.and_eq_true] at h
      exact List.forall_mem_cons.2
        ⟨by decide, isNumberChar_of_dropWhile (isNumberChar_of_isExponent h.2)⟩
    · simp only [Bool.and_eq_true] at h
      exact isNumberChar_of_isExponent h.2
  rcases hword with rfl | rfl
  · exact hunsigned hafter
  · exact List.forall_mem_cons.2 ⟨by decide, hunsigned hafter⟩

end Numbers

section Values

theorem tokens?_gap (layout : Layout) (depth : Nat) (rest : List Char) :
    tokens? .between (gap layout depth ++ rest) = tokens? .between rest := by
  cases layout with
  | compact => rfl
  | indented =>
      have hspaces : ∀ n, tokens? .between (List.replicate n ' ' ++ rest) =
          tokens? .between rest := by
        intro n
        induction n with
        | zero => rfl
        | succ n ih => rw [List.replicate_succ, List.cons_append, tokens?_space (by decide), ih]
      rw [gap, List.cons_append, tokens?_space (by decide), hspaces]

theorem tokens?_colon (layout : Layout) (rest : List Char) :
    tokens? .between (colon layout ++ rest) = (tokens? .between rest).map (.colon :: ·) := by
  cases layout with
  | compact => exact tokens?_punctuation rfl rest
  | indented =>
      rw [colon, List.cons_append, tokens?_punctuation rfl, List.cons_append,
        tokens?_space (by decide), List.nil_append]

theorem ends_gap_append (layout : Layout) (depth : Nat) {rest : List Char} (h : Ends rest) :
    Ends (gap layout depth ++ rest) := by
  cases layout with
  | compact => exact h
  | indented => simp [Ends, gap, isSpace]

theorem ends_cons {c : Char} {token : Token} (h : punctuation? c = some token)
    (rest : List Char) : Ends (c :: rest) := by
  simp [Ends, h]

theorem ends_renderItems (layout : Layout) (depth : Nat) (items : List Json)
    (rest : List Char) : Ends (renderItems layout depth items ++ rest) := by
  cases items with
  | nil =>
      rw [renderItems, List.append_assoc]
      exact ends_gap_append layout depth (ends_cons rfl rest)
  | cons item items =>
      rw [renderItems, List.cons_append, List.cons_append]
      exact ends_cons rfl _

theorem ends_renderMembers (layout : Layout) (depth : Nat) (members : List (String × Json))
    (rest : List Char) : Ends (renderMembers layout depth members ++ rest) := by
  cases members with
  | nil =>
      rw [renderMembers, List.append_assoc]
      exact ends_gap_append layout depth (ends_cons rfl rest)
  | cons member members =>
      rw [renderMembers]
      exact ends_cons rfl _

-- The text of the value gives its tokens, in front of anything that ends a word.
def Scans (value : Json) : Prop :=
  ∀ layout depth rest, Ends rest → tokens? .between (render layout depth value ++ rest) =
    (tokens? .between rest).map (value.tokens ++ ·)

theorem tokens?_renderItems {items : List Json} (h : ∀ item ∈ items, Scans item)
    (layout : Layout) (depth : Nat) (rest : List Char) :
    tokens? .between (renderItems layout depth items ++ rest) =
      (tokens? .between rest).map (itemTokens items ++ ·) := by
  induction items with
  | nil =>
      rw [renderItems, List.append_assoc, tokens?_gap]
      exact tokens?_punctuation rfl rest
  | cons item items ih =>
      have hitem := h item (by simp) layout (depth + 1) _ (ends_renderItems layout depth items rest)
      have hitems := ih fun item hmem => h item (List.mem_cons_of_mem _ hmem)
      have hcomma := tokens?_punctuation (c := ',') rfl
      simp only [renderItems, itemTokens, List.cons_append, List.append_assoc, hcomma, tokens?_gap,
        hitem, hitems, Option.map_map, Function.comp_def]

theorem tokens?_renderMembers {members : List (String × Json)} (h : ∀ m ∈ members, Scans m.2)
    (layout : Layout) (depth : Nat) (rest : List Char) :
    tokens? .between (renderMembers layout depth members ++ rest) =
      (tokens? .between rest).map (memberTokens members ++ ·) := by
  induction members with
  | nil =>
      rw [renderMembers, List.append_assoc, tokens?_gap]
      exact tokens?_punctuation rfl rest
  | cons member members ih =>
      have hvalue := h member (by simp) layout (depth + 1) _
        (ends_renderMembers layout depth members rest)
      have hmembers := ih fun m hmem => h m (List.mem_cons_of_mem _ hmem)
      have hcomma := tokens?_punctuation (c := ',') rfl
      simp only [renderMembers, memberTokens, List.cons_append, List.append_assoc, hcomma,
        tokens?_gap, tokens?_quote, tokens?_colon, hvalue, hmembers, Option.map_map,
        Function.comp_def]

theorem scans_number {literal : String} (h : isNumber literal.toList) :
    Scans (number literal) := by
  intro layout depth rest hrest
  have hchars := isNumberChar_of_isNumber h
  have htoken := wordToken?_of_isNumber h
  rw [String.ofList_toList] at htoken
  rw [render, tokens]
  generalize literal.toList = word at h hchars htoken
  cases word with
  | nil => exact absurd h (by decide)
  | cons c word =>
      have hquote : c ≠ '"' := by
        rintro rfl
        exact absurd (hchars '"' (by simp)) (by decide)
      exact tokens?_between_word (fun d hd => isWordChar_of_isNumberChar (hchars d hd)) hquote hrest
        htoken

theorem scans {value : Json} (h : Wellformed value) : Scans value := by
  induction h with
  | null =>
      intro layout depth rest hrest
      exact tokens?_between_word (by simp [isWordChar, isSpace, punctuation?]) (by decide) hrest rfl
  | bool value =>
      intro layout depth rest hrest
      cases value with
      | true =>
          exact tokens?_between_word (by simp [isWordChar, isSpace, punctuation?]) (by decide) hrest rfl
      | false =>
          exact tokens?_between_word (by simp [isWordChar, isSpace, punctuation?]) (by decide) hrest rfl
  | number literal h => exact scans_number h
  | string value =>
      intro layout depth rest _
      exact tokens?_quote value rest
  | array items h ih =>
      intro layout depth rest _
      have hopen := tokens?_punctuation (c := '[') rfl
      cases items with
      | nil =>
          have hclose := tokens?_punctuation (c := ']') rfl
          simp only [render, tokens, List.cons_append, List.nil_append, hopen, hclose,
            Option.map_map, Function.comp_def]
      | cons item items =>
          have hitem := ih item (by simp) layout (depth + 1) _
            (ends_renderItems layout depth items rest)
          have hitems := tokens?_renderItems (fun item hmem => ih item (List.mem_cons_of_mem _ hmem))
            layout depth rest
          simp only [render, tokens, List.cons_append, List.append_assoc, hopen, tokens?_gap, hitem,
            hitems, Option.map_map, Function.comp_def]
  | object members h ih =>
      intro layout depth rest _
      have hopen := tokens?_punctuation (c := '{') rfl
      cases members with
      | nil =>
          have hclose := tokens?_punctuation (c := '}') rfl
          simp only [render, tokens, List.cons_append, List.nil_append, hopen, hclose,
            Option.map_map, Function.comp_def]
      | cons member members =>
          have hvalue := ih member (by simp) layout (depth + 1) _
            (ends_renderMembers layout depth members rest)
          have hmembers := tokens?_renderMembers
            (fun m hmem => ih m (List.mem_cons_of_mem _ hmem)) layout depth rest
          simp only [render, tokens, List.cons_append, List.append_assoc, hopen, tokens?_gap,
            tokens?_quote, tokens?_colon, hvalue, hmembers, Option.map_map, Function.comp_def]

end Values

end ApiCatalog.Json
