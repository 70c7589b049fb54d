import ApiCatalog.Proofs.Block.Draft

namespace ApiCatalog

namespace Comment

theorem atStart?_eq_none {text : List Char} (h : ¬ ['/', '*', '*'] <+: text) :
    atStart? text = none := by
  have hopener : opener? text = none := by
    by_contra hsome
    obtain ⟨⟨opener, rest⟩, hfound⟩ := Option.ne_none_iff_exists'.1 hsome
    obtain ⟨gap, -, rfl, rfl⟩ := opener?_iff.1 hfound
    exact h ⟨gap ++ '\n' :: rest, by simp⟩
  simp [atStart?, hopener]

theorem next?_eq_none {text : List Char} (h : ¬ ['/', '*', '*'] <:+: text) :
    next? text = none := by
  induction text with
  | nil => rfl
  | cons c rest ih =>
      rw [List.infix_cons_iff, not_or] at h
      simp [next?, atStart?_eq_none h.1, ih h.2]

-- No opener begins in a text without one and ends behind it, since the next one
-- starts with the character that an opener holds only once.
theorem next?_append {before text : List Char} {span : Span} (h : ¬ ['/', '*', '*'] <:+: before)
    (hstart : atStart? ('/' :: text) = some span) :
    next? (before ++ '/' :: text) = some { span with before := before } := by
  induction before with
  | nil =>
      have hnothing : span.before = [] := (text_of_atStart? hstart).2
      rw [List.nil_append, next?, hstart]
      cases span
      simp_all
  | cons c rest ih =>
      rw [List.infix_cons_iff, not_or] at h
      have hnone : ¬ ['/', '*', '*'] <+: c :: (rest ++ '/' :: text) := by
        rintro ⟨more, hmore⟩
        rcases rest with _ | ⟨d, _ | ⟨e, tail⟩⟩
        · simp at hmore
        · simp at hmore
        · simp only [List.cons_append, List.nil_append, List.cons.injEq] at hmore
          obtain ⟨rfl, rfl, rfl, -⟩ := hmore
          exact h.1 ⟨tail, rfl⟩
      simp [next?, atStart?_eq_none hnone, ih h.2]

end Comment

namespace Draft

-- A text with drafts in it: something in front of them, and something behind each.
def layout (before : List Char) : List (Draft × List Char) → List Char
  | [] => before
  | (d, after) :: rest => before ++ d.render ++ layout after rest

-- What is to be read back, when `passed` stands in front of it all.
def blocks (path : String) (passed before : List Char) : List (Draft × List Char) → List Block
  | [] => []
  | (d, after) :: rest =>
      d.block path (.behind (passed ++ before)) ::
        blocks path (passed ++ before ++ d.render) after rest

theorem atStart?_opener {interior : List Char} (h : ¬ Comment.closing <:+: interior)
    (after : List Char) :
    Comment.atStart? (opener ++ interior ++ Comment.closing ++ after) =
      some ⟨[], opener, interior, after⟩ := by
  have hopener : Comment.opener? (opener ++ interior ++ Comment.closing ++ after) =
      some (opener, interior ++ Comment.closing ++ after) := by
    rw [Comment.opener?_iff]
    exact ⟨[], by simp, rfl, by simp⟩
  have hcut : Text.cut? Comment.closing (interior ++ Comment.closing ++ after) =
      some (interior, after) := Comment.cut?_closing_iff.2 ⟨rfl, h⟩
  simp only [Comment.atStart?, hopener, Option.bind_some, hcut, Option.map_some]

theorem atStart?_render (d : Draft) (after : List Char) :
    Comment.atStart? (d.render ++ after) = some ⟨[], opener, d.interior, after⟩ := by
  rw [render_eq]
  exact atStart?_opener d.interior_unclosed after

theorem next?_render (d : Draft) {before : List Char} (h : ¬ ['/', '*', '*'] <:+: before)
    (after : List Char) :
    Comment.next? (before ++ d.render ++ after) =
      some ⟨before, opener, d.interior, after⟩ := by
  have hstart := d.atStart?_render after
  rw [List.append_assoc]
  exact Comment.next?_append h hstart

theorem not_swallows (d : Draft) (before after : List Char) :
    ¬ Comment.Span.Swallows ⟨before, opener, d.interior, after⟩ := by
  rintro ⟨hblank, -⟩
  obtain ⟨c, line, rest, htexts, -⟩ := d.head_texts
  have hstar : '*' ∈ d.interior := by
    rw [interior_eq htexts]
    simp
  exact absurd (hblank '*' hstar) (by decide)

-- One draft is read, and the search goes on behind it.
theorem findFrom_layout (path : String) (passed before : List Char)
    (drafts : List (Draft × List Char)) (hbefore : ¬ ['/', '*', '*'] <:+: before)
    (hafter : ∀ p ∈ drafts, ¬ ['/', '*', '*'] <:+: p.2) :
    (Comment.findFrom (.behind passed) 0 (layout before drafts)).map
        (fun (place, comment) => Block.ofComment path place comment) =
      blocks path passed before drafts := by
  induction drafts generalizing passed before with
  | nil => simp [layout, blocks, Comment.findFrom_eq_nil (Comment.next?_eq_none hbefore)]
  | cons head rest ih =>
      obtain ⟨d, after⟩ := head
      have hfind := Comment.findFrom_of_not_swallows (.behind passed)
        (d.next?_render hbefore (layout after rest)) (d.not_swallows before (layout after rest))
      have hrest := ih (passed ++ before ++ d.render) after (hafter (d, after) (by simp))
        fun p hp => hafter p (List.mem_cons_of_mem _ hp)
      have hblock := d.ofComment_interior path (.behind (passed ++ before))
      rw [layout, blocks, hfind, List.map_cons, Location.advanceAll_behind,
        Location.advanceAll_behind, ← render_eq, hrest]
      exact congrArg (· :: _) hblock

-- Reading a text that was written undoes the writing: the blocks come back in
-- order, each with its place, its summary, and its tags on the lines where they are.
theorem find_layout (path : String) (before : List Char) (drafts : List (Draft × List Char))
    (hbefore : ¬ ['/', '*', '*'] <:+: before)
    (hafter : ∀ p ∈ drafts, ¬ ['/', '*', '*'] <:+: p.2) :
    Block.find path (layout before drafts) = blocks path [] before drafts :=
  findFrom_layout path [] before drafts hbefore hafter

-- A draft with all that a comment may hold, ever further indented, a draft of
-- one tag, and a text that is almost a comment on either side of them.
def roleSample : Draft where
  summary := "Who may\n  do what".toList
  entries := [
    { suffix := "Param".toList
      payload := "name\n\n * of @the role".toList
      letters := List.all_eq_true.1 (by decide)
      trimmed := by decide
      untagged := by decide +kernel
      unclosed := by decide +kernel },
    { suffix := []
      payload := []
      letters := List.all_eq_true.1 (by decide)
      trimmed := by decide
      untagged := by decide
      unclosed := by decide }]
  indent i := List.replicate i ' '
  trimmed := by decide
  untagged := by decide +kernel
  unclosed := by decide +kernel
  nonempty := by decide
  gaps := by
    intro i c hc
    rw [List.eq_of_mem_replicate hc]
    decide

def tagSample : Draft where
  summary := []
  entries := roleSample.entries.take 1
  indent _ := []
  trimmed := by decide
  untagged := by decide
  unclosed := by decide
  nonempty := by decide
  gaps := by
    intro i c hc
    exact absurd hc List.not_mem_nil

def separatorSample : List Char := "*/ é /\n/".toList

theorem find_layout_samples :
    ¬ ['/', '*', '*'] <:+: separatorSample ∧
    Block.find "roles" (layout separatorSample [(roleSample, separatorSample), (tagSample, [])]) =
      [{ path := "roles"
         location := { offset := 9, line := 2, column := 2 }
         summary := "Who may\n  do what"
         lines := [⟨"param", "name\n\n * of @the role", 5⟩, ⟨"api", "", 8⟩] },
       { path := "roles"
         location := { offset := 112, line := 10, column := 2 }
         summary := ""
         lines := [⟨"param", "name\n\n * of @the role", 11⟩] }] := by
  have hseparator : ¬ ['/', '*', '*'] <:+: separatorSample := by decide +kernel
  have hafter : ∀ p ∈ [(roleSample, separatorSample), (tagSample, [])],
      ¬ ['/', '*', '*'] <:+: p.2 := by decide +kernel
  refine ⟨hseparator, (find_layout "roles" separatorSample _ hseparator hafter).trans ?_⟩
  decide +kernel

end Draft

end ApiCatalog
