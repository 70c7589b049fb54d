import ApiCatalog.Proofs.Comment.Breaks
import ApiCatalog.Proofs.Document.Codec
import ApiCatalog.Proofs.Report

namespace ApiCatalog

namespace Json

-- A text that may stand between any breaks of a layout: it holds no carriage
-- return, every break in it is sealed, and so are those on either side of it.
structure Firm (text : List Char) : Prop where
  unreturned : '\r' ∉ text
  sealed : text.IsChain Comment.Seals
  head : ∃ c, text.head? = some c ∧ c ≠ '\n'
  last : ∃ c, text.getLast? = some c ∧ Comment.Seals c '\n'

theorem isChain_of_not_mem_tail {text : List Char} (h : '\n' ∉ text.tail) :
    text.IsChain Comment.Seals := by
  rw [List.isChain_iff_forall_rel_of_append_cons_cons]
  rintro a b before after rfl rfl
  exact absurd (by cases before <;> simp) h

theorem firm_of_unbroken {text : List Char} {c : Char} (hbreak : '\n' ∉ text)
    (hreturn : '\r' ∉ text) (hlast : text.getLast? = some c) (hc : Comment.Seals c '\n') :
    Firm text where
  unreturned := hreturn
  sealed := isChain_of_not_mem_tail fun hmem => hbreak (List.mem_of_mem_tail hmem)
  head := by
    cases text with
    | nil => cases hlast
    | cons first rest => exact ⟨first, rfl, fun heq => hbreak (by simp [heq])⟩
  last := ⟨c, hlast, hc⟩

-- What goes between two such texts may begin with a break, and goes on without one.
theorem Firm.append {left right : List Char} (hleft : Firm left) (hright : Firm right)
    (between : List Char) (hbreak : '\n' ∉ between.tail) (hreturn : '\r' ∉ between) :
    Firm (left ++ between ++ right) := by
  obtain ⟨first, hfirst, hne⟩ := hleft.head
  obtain ⟨last, hlast, hseals⟩ := hleft.last
  obtain ⟨next, hnext, hnext_ne⟩ := hright.head
  obtain ⟨final, hfinal, hfinal_seals⟩ := hright.last
  refine ⟨?_, ?_, ⟨first, by simp [List.head?_append, hfirst], hne⟩,
    ⟨final, by simp [List.getLast?_append, hfinal], hfinal_seals⟩⟩
  · simp [hleft.unreturned, hreturn, hright.unreturned]
  · refine List.isChain_append.2 ⟨List.isChain_append.2
      ⟨hleft.sealed, isChain_of_not_mem_tail hbreak, ?_⟩, hright.sealed, ?_⟩
    · intro a ha b _ _
      obtain rfl : last = a := Option.some.inj (hlast.symm.trans ha)
      exact hseals rfl
    · intro a _ b hb heq
      obtain rfl : next = b := Option.some.inj (hnext.symm.trans hb)
      exact absurd heq hnext_ne

section Pieces

theorem le_toNat_of_mem_escapeChar {c d : Char} (h : d ∈ escapeChar c) : 32 ≤ d.toNat := by
  rcases escapeChar_cases c with ⟨hc, -, -, hplain⟩ | ⟨e, hc, -, hsimple⟩ | ⟨hcontrol, hc⟩
  · rw [hc, List.mem_singleton] at h
    rw [h]
    omega
  · rw [hc] at h
    simp only [List.mem_cons, List.not_mem_nil, or_false] at h
    rcases h with rfl | rfl
    · decide
    · by_contra hlow
      unfold simpleEscape? at hsimple
      split at hsimple <;> simp_all
  · have hhigh := (isPlain_hexDigit (n := c.toNat / 16) (by omega)).2.2
    have hlow := (isPlain_hexDigit (n := c.toNat % 16) (by omega)).2.2
    rw [hc] at h
    simp only [List.mem_cons, List.not_mem_nil, or_false] at h
    rcases h with rfl | rfl | rfl | rfl | rfl | rfl
    · decide
    · decide
    · decide
    · decide
    · omega
    · omega

-- Every control character of a string is written as an escape.
theorem firm_quote (s : String) : Firm (quote s) := by
  have hchars : ∀ c ∈ quote s, 32 ≤ c.toNat := by
    intro c hc
    simp only [quote, List.cons_append, List.mem_cons, List.mem_append, List.mem_flatMap,
      List.not_mem_nil, or_false] at hc
    rcases hc with rfl | ⟨d, -, hd⟩ | rfl
    · decide
    · exact le_toNat_of_mem_escapeChar hd
    · decide
  have hlast : (quote s).getLast? = some '"' := List.getLast?_concat
  exact firm_of_unbroken (fun hmem => absurd (hchars _ hmem) (by decide))
    (fun hmem => absurd (hchars _ hmem) (by decide)) hlast fun _ => by decide

-- A visible character other than a star.
def isFirm (c : Char) : Bool := 32 < c.toNat && c != '*'

theorem firm_word (text : List Char) (hne : text ≠ []) (h : text.all isFirm) : Firm text := by
  have hfirm : ∀ c ∈ text, isFirm c := List.all_eq_true.1 h
  refine firm_of_unbroken (fun hmem => absurd (hfirm _ hmem) (by decide))
    (fun hmem => absurd (hfirm _ hmem) (by decide)) (List.getLast?_eq_some_getLast hne) fun _ => ?_
  have hlast := hfirm _ (List.getLast_mem hne)
  refine ⟨fun hstar => absurd hlast (by rw [hstar]; decide), ?_⟩
  by_contra hgap
  simp only [Text.isGap, Bool.not_eq_false, Bool.or_eq_true, beq_iff_eq] at hgap
  rcases hgap with hgap | hgap <;> exact absurd hlast (by rw [hgap]; decide)

theorem firm_number {literal : String} (h : isNumber literal.toList) : Firm literal.toList := by
  refine firm_word _ ?_ ?_
  · intro hnil
    rw [hnil] at h
    exact absurd h (by decide)
  · rw [List.all_eq_true]
    intro c hc
    have hchar := isNumberChar_of_isNumber h c hc
    simp only [isNumberChar, isDigit, Bool.or_eq_true, Bool.and_eq_true, decide_eq_true_eq,
      beq_iff_eq, Char.le_def, UInt32.le_iff_toNat_le] at hchar
    rcases hchar with ((((hdigit | rfl) | rfl) | rfl) | rfl) | rfl
    · change 48 ≤ c.toNat ∧ _ at hdigit
      have hstar : c ≠ '*' := fun heq => absurd hdigit.1 (by rw [heq]; decide)
      simp only [isFirm, Bool.and_eq_true, decide_eq_true_eq, bne_iff_ne]
      exact ⟨by omega, hstar⟩
    all_goals decide

theorem Firm.gap {left right : List Char} (hleft : Firm left) (hright : Firm right)
    (layout : Layout) (depth : Nat) : Firm (left ++ Json.gap layout depth ++ right) := by
  cases layout with
  | compact => exact hleft.append hright _ (by simp [Json.gap]) (by simp [Json.gap])
  | indented =>
      exact hleft.append hright _ (by simp [Json.gap, List.mem_replicate])
        (by simp [Json.gap, List.mem_replicate])

theorem Firm.colon {left right : List Char} (hleft : Firm left) (hright : Firm right)
    (layout : Layout) : Firm (left ++ Json.colon layout ++ right) := by
  cases layout with
  | compact => exact hleft.append hright _ (by decide) (by decide)
  | indented => exact hleft.append hright _ (by decide) (by decide)

theorem Firm.comma {left : List Char} (h : Firm left) : Firm (left ++ [',']) := by
  have hcomma : Firm [','] := firm_word _ (by decide) (by decide)
  simpa using h.append hcomma [] (by simp) (by simp)

end Pieces

-- The text of the value is firm in every layout.
def Prints (value : Json) : Prop := ∀ layout depth, Firm (render layout depth value)

-- The rest of a list is not: in front of its bracket stands a break. Behind
-- something firm it makes a firm text.
theorem Firm.renderItems {left : List Char} (hleft : Firm left) {items : List Json}
    (h : ∀ item ∈ items, Prints item) (layout : Layout) (depth : Nat) :
    Firm (left ++ renderItems layout depth items) := by
  induction items generalizing left with
  | nil =>
      have hclose : Firm [']'] := firm_word _ (by decide) (by decide)
      simpa [Json.renderItems] using hleft.gap hclose layout depth
  | cons item items ih =>
      have hitem := hleft.comma.gap (h item (by simp) layout (depth + 1)) layout (depth + 1)
      have hrest := ih hitem fun other hother => h other (List.mem_cons_of_mem _ hother)
      simpa [Json.renderItems] using hrest

theorem Firm.renderMembers {left : List Char} (hleft : Firm left)
    {members : List (String × Json)} (h : ∀ m ∈ members, Prints m.2) (layout : Layout)
    (depth : Nat) : Firm (left ++ renderMembers layout depth members) := by
  induction members generalizing left with
  | nil =>
      have hclose : Firm ['}'] := firm_word _ (by decide) (by decide)
      simpa [Json.renderMembers] using hleft.gap hclose layout depth
  | cons member members ih =>
      have hvalue := (firm_quote member.1).colon (h member (by simp) layout (depth + 1)) layout
      have hmember := hleft.comma.gap hvalue layout (depth + 1)
      have hrest := ih hmember fun other hother => h other (List.mem_cons_of_mem _ hother)
      simpa [Json.renderMembers] using hrest

theorem prints {value : Json} (h : Wellformed value) : Prints value := by
  induction h with
  | null =>
      intro layout depth
      exact firm_word ['n', 'u', 'l', 'l'] (by decide) (by decide)
  | bool value =>
      intro layout depth
      cases value with
      | true => exact firm_word ['t', 'r', 'u', 'e'] (by decide) (by decide)
      | false => exact firm_word ['f', 'a', 'l', 's', 'e'] (by decide) (by decide)
  | number literal h =>
      intro layout depth
      exact firm_number h
  | string value =>
      intro layout depth
      exact firm_quote value
  | array items h ih =>
      intro layout depth
      cases items with
      | nil => exact firm_word ['[', ']'] (by decide) (by decide)
      | cons item items =>
          have hopen : Firm ['['] := firm_word _ (by decide) (by decide)
          have hitem := hopen.gap (ih item (by simp) layout (depth + 1)) layout (depth + 1)
          have hitems := hitem.renderItems
            (fun other hother => ih other (List.mem_cons_of_mem _ hother)) layout depth
          simpa [render] using hitems
  | object members h ih =>
      intro layout depth
      cases members with
      | nil => exact firm_word ['{', '}'] (by decide) (by decide)
      | cons member members =>
          have hopen : Firm ['{'] := firm_word _ (by decide) (by decide)
          have hvalue := (firm_quote member.1).colon
            (ih member (by simp) layout (depth + 1)) layout
          have hmember := hopen.gap hvalue layout (depth + 1)
          have hmembers := hmember.renderMembers
            (fun other hother => ih other (List.mem_cons_of_mem _ hother)) layout depth
          simpa [render] using hmembers

end Json

namespace Document

-- Whatever the document holds, its text has no block.
theorem ofSource_render (d : Document) (path : String) (pretty : Bool) :
    Contribution.ofSource path (d.render pretty) = .ok [] := by
  have hfirm := Json.prints d.wellformed_toJson (.ofPretty pretty) 0
  rw [Contribution.ofSource, render, Json.print, String.toList_ofList,
    Text.unifyBreaks_of_not_mem hfirm.unreturned, Block.find_eq_nil_of_isChain hfirm.sealed]
  rfl

end Document

namespace Report

-- A file without blocks only counts.
theorem ofFiles_insert (file : SourceFile)
    (h : Contribution.ofSource file.path file.text = .ok []) (before after : List SourceFile) :
    ofFiles (before ++ file :: after) =
      { ofFiles (before ++ after) with files := (ofFiles (before ++ after)).files + 1 } := by
  have hcontributions : file.contributions = [] := by simp [SourceFile.contributions, h]
  have hfailure : file.failure? = none := by simp [SourceFile.failure?, h]
  obtain ⟨hdocument, hfailures, hcount⟩ := accounts_ofFiles (before ++ file :: after)
  obtain ⟨hdocument', hfailures', hcount'⟩ := accounts_ofFiles (before ++ after)
  have hsame : (before ++ file :: after).flatMap (·.contributions) =
      (before ++ after).flatMap (·.contributions) := by simp [hcontributions]
  rw [hsame] at hdocument
  generalize ofFiles (before ++ file :: after) = r at hdocument hfailures hcount
  generalize ofFiles (before ++ after) = r' at hdocument' hfailures' hcount'
  obtain ⟨document, failures, files⟩ := r
  simp only [Report.mk.injEq]
  refine ⟨hdocument.unique hdocument', ?_, ?_⟩
  · simpa [hfailure, hfailures'] using hfailures
  · simp only [hcount', List.length_append, List.length_cons] at hcount ⊢
    omega

-- The text of a document is inert as a source: it adds nothing and breaks no
-- rule, so a catalog that is written among its own sources stays as it is.
theorem ofFiles_insert_render (path : String) (pretty : Bool) :
    (∀ d : Document, Contribution.ofSource path (d.render pretty) = .ok []) ∧
    ∀ before after : List SourceFile,
      let report := ofFiles (before ++ after)
      ofFiles (before ++ ⟨path, report.document.render pretty⟩ :: after) =
        { report with files := report.files + 1 } := by
  refine ⟨fun d => d.ofSource_render path pretty, ?_⟩
  intro before after report
  have hsource : Contribution.ofSource path (report.document.render pretty) = .ok [] :=
    report.document.ofSource_render path pretty
  exact ofFiles_insert ⟨path, report.document.render pretty⟩ hsource before after

end Report

end ApiCatalog
