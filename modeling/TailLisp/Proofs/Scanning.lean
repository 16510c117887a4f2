import TailLisp.Token.Cursor

namespace TailLisp

/-!
Runs of the scanner.

A cursor scans a sequence of tokens when reading token by token yields exactly
these and leaves another cursor.  The relation speaks about any beginning of
the tokens of a text, whether or not a flaw comes later, which is the part of
the text that a reader of one item gets to see.
-/

namespace Cursor

/-- The tokens are the next ones of the cursor, and the second cursor stands
behind them. -/
inductive Scans : Cursor -> List Token -> Cursor -> Prop
  | nil (cursor) : Scans cursor [] cursor
  | cons {cursor token middle tokens ending} :
      cursor.next = (.token token, middle) ->
      Scans middle tokens ending ->
      Scans cursor (token :: tokens) ending

namespace Scans

theorem append {cursor middle ending : Cursor} {tokens later : List Token}
    (first : Scans cursor tokens middle) (second : Scans middle later ending) :
    Scans cursor (tokens ++ later) ending := by
  induction first with
  | nil => exact second
  | cons found _ inductionHypothesis => exact .cons found (inductionHypothesis second)

theorem of_append {cursor ending : Cursor} {tokens later : List Token}
    (scanned : Scans cursor (tokens ++ later) ending) :
    Exists fun middle => Scans cursor tokens middle ∧ Scans middle later ending := by
  induction tokens generalizing cursor with
  | nil => exact ⟨cursor, .nil cursor, scanned⟩
  | cons token tokens inductionHypothesis =>
      cases scanned with
      | cons found rest =>
          rcases inductionHypothesis rest with ⟨middle, before, after⟩
          exact ⟨middle, .cons found before, after⟩

/-- No token is scanned for nothing. -/
theorem length_le {cursor ending : Cursor} {tokens : List Token}
    (scanned : Scans cursor tokens ending) :
    tokens.length + ending.rest.length <= cursor.rest.length := by
  induction scanned with
  | nil => simp
  | cons found _ inductionHypothesis =>
      have shorter := length_next_lt_of_token found
      rw [List.length_cons]
      omega

/-- All tokens of a text are those scanned first and those found from there. -/
theorem tokens_eq {cursor ending : Cursor} {tokens : List Token}
    (scanned : Scans cursor tokens ending) :
    cursor.tokens = (tokens ++ ending.tokens.1, ending.tokens.2) := by
  induction scanned with
  | nil => rfl
  | @cons cursor token middle tokens ending found _ inductionHypothesis =>
      rw [Cursor.tokens]
      split
      · next other after alsoFound =>
          rw [found, Prod.mk.injEq, Scan.token.injEq] at alsoFound
          rw [← alsoFound.1, ← alsoFound.2, inductionHypothesis]
          rfl
      · next stop after notToken alsoFound =>
          rw [found, Prod.mk.injEq] at alsoFound
          exact (notToken token alsoFound.1.symm).elim

/-- Where the next token is the same, so are all that follow. -/
theorem of_next_eq {cursor other ending : Cursor} {tokens : List Token}
    (scanned : Scans cursor tokens ending) (same : cursor.next = other.next)
    (nonempty : tokens ≠ []) : Scans other tokens ending := by
  cases scanned with
  | nil => exact (nonempty rfl).elim
  | cons found rest => exact .cons (same.symm.trans found) rest

end Scans

/-- Some text has the token as its next one. -/
def Finds (token : Token) : Prop :=
  Exists fun cursor => Exists fun after => Cursor.next cursor = (.token token, after)

theorem Scans.finds {cursor ending : Cursor} {tokens : List Token}
    (scanned : Scans cursor tokens ending) : forall token, token ∈ tokens -> Finds token := by
  induction scanned with
  | nil => nofun
  | cons found _ inductionHypothesis =>
      exact List.forall_mem_cons.2 ⟨⟨_, _, found⟩, inductionHypothesis⟩

/-- Reading all tokens of a text scans them. -/
theorem scans_tokens (cursor : Cursor) :
    Exists fun ending => Scans cursor cursor.tokens.1 ending ∧
      ending.next = cursor.tokens.2 ∧ ending.tokens.1 = [] := by
  fun_induction Cursor.tokens cursor with
  | case1 cursor token after found later stop same inductionHypothesis =>
      rw [same] at inductionHypothesis
      rcases inductionHypothesis with ⟨ending, scanned, stopped, none⟩
      exact ⟨ending, .cons found scanned, stopped, none⟩
  | case2 cursor stop after notToken found =>
      refine ⟨cursor, .nil cursor, found, ?_⟩
      rw [Cursor.tokens]
      split
      · next token middle alsoFound =>
          rw [found, Prod.mk.injEq] at alsoFound
          exact (notToken token alsoFound.1).elim
      · rfl

end Cursor

/-! ## Blank text before a token -/

namespace Blank

/-- What follows the blank beginning of a text does not begin blank. -/
theorem splitFrom_rest (inComment : Bool) (text : Bytes) :
    split (splitFrom inComment text).2 = ([], (splitFrom inComment text).2) := by
  induction text generalizing inComment with
  | nil => rfl
  | cons byte text inductionHypothesis =>
      unfold splitFrom
      split
      · exact inductionHypothesis _
      · next notBlank =>
          rw [Bool.or_assoc, Bool.not_eq_true, Bool.or_eq_false_iff] at notBlank
          rw [split, splitFrom, Bool.false_or, notBlank.2]
          rfl

theorem split_rest (text : Bytes) : split (split text).2 = ([], (split text).2) :=
  splitFrom_rest false text

end Blank

namespace Cursor

theorem skipBlank_skipBlank (cursor : Cursor) : cursor.skipBlank.skipBlank = cursor.skipBlank := by
  have nothing := Blank.split_rest cursor.rest
  simp only [skipBlank, move, nothing, Position.after_nil]

/-- Blank text before a token can be skipped first. -/
theorem next_skipBlank (cursor : Cursor) : cursor.skipBlank.next = cursor.next := by
  rw [next_eq_scanHere, next_eq_scanHere, skipBlank_skipBlank]

theorem scans_skipBlank {cursor ending : Cursor} {tokens : List Token} (nonempty : tokens ≠ []) :
    cursor.skipBlank.Scans tokens ending ↔ cursor.Scans tokens ending := by
  constructor
  · intro scanned
    exact scanned.of_next_eq (next_skipBlank cursor) nonempty
  · intro scanned
    exact scanned.of_next_eq (next_skipBlank cursor).symm nonempty

/-- The text is used up behind its blanks exactly if no token or flaw follows. -/
theorem atEnd_skipBlank (cursor : Cursor) :
    cursor.skipBlank.atEnd = true ↔ Exists fun pos => cursor.next.1 = .finish pos := by
  rw [atEnd, List.isEmpty_iff, next_eq_scanHere, scanHere]
  cases rest : cursor.skipBlank.rest with
  | nil => exact ⟨fun _ => ⟨_, rfl⟩, fun _ => rfl⟩
  | cons first text =>
      refine ⟨fun nothing => absurd nothing (List.cons_ne_nil first text), ?_⟩
      rintro ⟨pos, finished⟩
      dsimp only at finished
      split at finished <;> cases finished

/-- Where a token is found, more than blank text is left. -/
theorem Scans.not_atEnd {cursor ending : Cursor} {tokens : List Token}
    (scanned : cursor.Scans tokens ending) (nonempty : tokens ≠ []) :
    ¬ cursor.skipBlank.atEnd = true := by
  intro ended
  rcases (atEnd_skipBlank cursor).1 ended with ⟨pos, finished⟩
  cases scanned with
  | nil => exact nonempty rfl
  | cons found _ =>
      rw [found] at finished
      cases finished

/-- The beginnings of the tokens of a text are what can be scanned of it. -/
theorem isPrefix_tokens_iff {cursor : Cursor} {tokens : List Token} :
    tokens <+: cursor.tokens.1 ↔ Exists fun ending => cursor.Scans tokens ending := by
  constructor
  · rintro ⟨later, whole⟩
    rcases cursor.scans_tokens with ⟨ending, scanned, _⟩
    rw [← whole] at scanned
    rcases scanned.of_append with ⟨middle, first, _⟩
    exact ⟨middle, first⟩
  · rintro ⟨ending, scanned⟩
    rw [scanned.tokens_eq]
    exact List.prefix_append _ _

/-- All of a text is scanned if only blank text is left behind the tokens. -/
theorem tokens_eq_finish_iff {cursor : Cursor} {tokens : List Token} :
    (Exists fun pos => Exists fun after => cursor.tokens = (tokens, .finish pos, after)) ↔
      Exists fun ending => cursor.Scans tokens ending ∧ ending.skipBlank.atEnd = true := by
  constructor
  · rintro ⟨pos, after, whole⟩
    rcases cursor.scans_tokens with ⟨ending, scanned, stopped, _⟩
    rw [whole] at scanned stopped
    exact ⟨ending, scanned, (atEnd_skipBlank ending).2 ⟨pos, congrArg Prod.fst stopped⟩⟩
  · rintro ⟨ending, scanned, ended⟩
    rcases (atEnd_skipBlank ending).1 ended with ⟨pos, finished⟩
    refine ⟨pos, ending.next.2, ?_⟩
    have stopped : ending.next = (.finish pos, ending.next.2) := by
      rw [← finished]
    have nothing : ending.tokens = ([], .finish pos, ending.next.2) := by
      rw [Cursor.tokens]
      split
      · next token middle found =>
          rw [stopped] at found
          cases found
      · next stop after _ found =>
          rw [stopped] at found
          cases found
          rfl
    rw [scanned.tokens_eq, nothing, List.append_nil]

end Cursor

end TailLisp
