import InlaySql.Lib.Wildcard

/-!
# LIKE

The pattern is compiled to tokens and matched by backtracking to the most recent `%`
alone: an earlier one is never moved again. The matcher is run one turn of its loop at a
time, over what is left of the tokens and of the text.
-/

namespace InlaySql.Eval.Like

open List Option Lib.Wildcard

/-- One element of a compiled `LIKE` pattern. -/
inductive Token where
  | any
  | one
  | literal (c : Char)
  deriving DecidableEq, Repr

/-- `compile_pattern`: `none` when the pattern ends in a dangling escape. -/
def compilePattern (escape : Option Char) : List Char -> Option (List Token)
  | [] => some []
  | c :: chars =>
    if some c = escape then
      match chars with
      | [] => none
      | next :: chars => (compilePattern escape chars).map (.literal next :: ·)
    else if c = '%' then (compilePattern escape chars).map (.any :: ·)
    else if c = '_' then (compilePattern escape chars).map (.one :: ·)
    else (compilePattern escape chars).map (.literal c :: ·)

/-- `like_char_eq`, which folds the case of ASCII letters only. -/
def likeCharEq (pattern text : Char) : Bool := pattern == text || pattern.toLower == text.toLower

/-- A token as a piece of a pattern. -/
def Token.piece : Token -> Piece Char
  | .any => .run
  | .one => .single fun _ => true
  | .literal c => .single (likeCharEq c)

/-- The tokens since the last wildcard are matched by the text since it. -/
def Placed (tokens : List Token) (text : List Char) (mark : List Token × List Char) : Prop :=
  ∃ lead front, mark.1 = lead ++ tokens ∧ mark.2 = front ++ text ∧
    Fixed (lead.map Token.piece) ∧ Splits (lead.map Token.piece) front

theorem Placed.fresh (tokens : List Token) (text : List Char) : Placed tokens text (tokens, text) :=
  ⟨[], [], rfl, rfl, nofun, splits_nil.mpr rfl⟩

variable {token : Token} {tokens : List Token} {c : Char} {text : List Char}
  {mark : List Token × List Char} {escape : Option Char} {chars : List Char}

theorem Placed.advance {accepts : Char -> Bool}
    (placed : Placed (token :: tokens) (c :: text) mark) (single : token.piece = .single accepts)
    (accepted : accepts c = true) : Placed tokens text mark := by
  obtain ⟨lead, front, tokensEq, textEq, fixed, splits⟩ := placed
  refine ⟨lead ++ [token], front ++ [c], by simp [tokensEq], by simp [textEq], ?_, ?_⟩
  · rw [map_append, map_singleton, single]
    exact fixed.snoc
  · rw [map_append, map_singleton, single]
    exact splits_append.mpr ⟨front, [c], rfl, splits,
      splits_single_cons.mpr ⟨accepted, splits_nil.mpr rfl⟩⟩

theorem Placed.lengths (placed : Placed tokens text mark) :
    tokens.length ≤ mark.1.length ∧ text.length ≤ mark.2.length := by
  obtain ⟨lead, front, tokensEq, textEq, -, -⟩ := placed
  simp [tokensEq, textEq]

/-- The state of the loop: what is left of the tokens and of the text, and for the last
wildcard the tokens after it and the text it was tried at. -/
structure Attempt where
  tokens : List Token
  text : List Char
  wildcard : Option (List Token × List Char)
  placed : ∀ mark, wildcard = some mark -> Placed tokens text mark

/-- Give the last wildcard one more character. -/
def retry : Option (List Token × List Char) -> Attempt ⊕ Bool
  | some (tokens, _ :: text) =>
    .inl ⟨tokens, text, some (tokens, text), fun _ same => by cases same; exact .fresh ..⟩
  | some (_, []) | none => .inr false

/-- One turn of the loop, or the answer. -/
def Attempt.step : Attempt -> Attempt ⊕ Bool
  | ⟨tokens, [], _, _⟩ => .inr (tokens.all (· == .any))
  | ⟨.any :: tokens, c :: text, _, _⟩ =>
    .inl ⟨tokens, c :: text, some (tokens, c :: text), fun _ same => by cases same; exact .fresh ..⟩
  | ⟨.one :: tokens, _ :: text, wildcard, placed⟩ =>
    .inl ⟨tokens, text, wildcard, fun mark same => (placed mark same).advance rfl rfl⟩
  | ⟨.literal pattern :: tokens, c :: text, wildcard, placed⟩ =>
    if same : likeCharEq pattern c then
      .inl ⟨tokens, text, wildcard, fun mark isMark => (placed mark isMark).advance rfl same⟩
    else retry wildcard
  | ⟨[], _ :: _, wildcard, _⟩ => retry wildcard

/-- The tokens a later wildcard could stand before, the text the last one may still take, and
the text left. -/
def Attempt.left (self : Attempt) : Nat × Nat × Nat :=
  match self.wildcard with
  | none => (self.tokens.length + 1, 0, self.text.length)
  | some mark => (mark.1.length, mark.2.length, self.text.length)

theorem Attempt.step_left {self next : Attempt} (stepped : self.step = .inl next) :
    Prod.Lex (· < ·) (Prod.Lex (· < ·) (· < ·)) next.left self.left := by
  have retried {tokens : List Token} {text : List Char} {wildcard : Option (List Token × List Char)}
      {placed : ∀ mark, wildcard = some mark -> Placed tokens text mark}
      (again : retry wildcard = .inl next) :
      Prod.Lex (· < ·) (Prod.Lex (· < ·) (· < ·)) next.left
        (⟨tokens, text, wildcard, placed⟩ : Attempt).left := by
    unfold retry at again
    split at again
    · cases again
      exact .right _ (.left _ _ (by simp))
    · cases again
    · cases again
  obtain ⟨tokens, text, wildcard, placed⟩ := self
  cases text with
  | nil => cases stepped
  | cons c text =>
    cases tokens with
    | nil => exact retried stepped
    | cons token tokens =>
      cases token with
      | any =>
        cases stepped
        cases wildcard with
        | none =>
          refine .left _ _ ?_
          simp only [length_cons]
          omega
        | some mark => exact .left _ _ (Nat.lt_of_succ_le (placed mark rfl).lengths.1)
      | one =>
        cases stepped
        cases wildcard with
        | none => exact .left _ _ (by simp)
        | some mark => exact .right _ (.right _ (by simp))
      | literal pattern =>
        simp only [step] at stepped
        split at stepped
        · cases stepped
          cases wildcard with
          | none => exact .left _ _ (by simp)
          | some mark => exact .right _ (.right _ (by simp))
        · exact retried stepped

/-- The loop of `like_matches`. -/
def likeLoop (attempt : Attempt) : Bool :=
  match _stepped : attempt.step with
  | .inl next => likeLoop next
  | .inr answer => answer
termination_by attempt.left
decreasing_by exact Attempt.step_left _stepped

def likeMatches (pattern text : String) (escape : Option Char) : Bool :=
  match compilePattern escape pattern.toList with
  | none => false
  | some tokens => likeLoop ⟨tokens, text.toList, none, nofun⟩

/-! ## What the loop decides -/

/-- What an attempt is to answer. -/
def Attempt.Answers (self : Attempt) : Prop :=
  match self.wildcard with
  | none => Splits (self.tokens.map Token.piece) self.text
  | some mark => Splits (.run :: mark.1.map Token.piece) mark.2

/-- A step goes on with the same question, or answers it. -/
def Keeps (self : Attempt) : Attempt ⊕ Bool -> Prop
  | .inl next => self.Answers ↔ next.Answers
  | .inr answer => self.Answers ↔ answer = true

theorem piece_eq_run : token.piece = .run ↔ token = .any := by
  cases token <;> simp [Token.piece]

theorem retry_keeps {wildcard : Option (List Token × List Char)}
    {placed : ∀ mark, wildcard = some mark -> Placed tokens (c :: text) mark}
    (misfit : ¬ Splits (tokens.map Token.piece) (c :: text)) :
    Keeps ⟨tokens, c :: text, wildcard, placed⟩ (retry wildcard) := by
  cases wildcard with
  | none => exact iff_of_false misfit (by simp)
  | some mark =>
    obtain ⟨after, rest⟩ := mark
    obtain ⟨lead, front, rfl, restEq, fixed, splits⟩ := placed _ rfl
    cases rest with
    | nil => simp at restEq
    | cons item rest =>
      have sameRest : item :: rest = front ++ c :: text := restEq
      refine splits_retry fun fits => misfit ?_
      rw [sameRest, map_append] at fits
      exact (splits_placed fixed splits).mp fits

theorem Attempt.step_keeps (self : Attempt) : Keeps self self.step := by
  obtain ⟨tokens, text, wildcard, placed⟩ := self
  cases text with
  | nil =>
    have ended : Splits (tokens.map Token.piece) [] ↔ tokens.all (· == .any) = true := by
      simp [splits_empty, piece_eq_run]
    cases wildcard with
    | none => exact ended
    | some mark =>
      obtain ⟨after, rest⟩ := mark
      obtain ⟨lead, front, rfl, rfl, fixed, splits⟩ := placed _ rfl
      refine Iff.trans ?_ ended
      change Splits (.run :: (lead ++ tokens).map Token.piece) (front ++ []) ↔ _
      rw [map_append, append_nil]
      exact splits_ended fixed splits
  | cons c text =>
    cases tokens with
    | nil => exact retry_keeps (by simp)
    | cons token tokens =>
      cases token with
      | any =>
        cases wildcard with
        | none => exact Iff.rfl
        | some mark =>
          obtain ⟨after, rest⟩ := mark
          obtain ⟨lead, front, rfl, rfl, fixed, splits⟩ := placed _ rfl
          change Splits (.run :: (lead ++ .any :: tokens).map Token.piece) _ ↔ _
          rw [map_append]
          exact splits_exchange fixed splits
      | one =>
        cases wildcard with
        | none => exact splits_single_cons.trans (and_iff_right rfl)
        | some mark => exact Iff.rfl
      | literal pattern =>
        rw [step]
        split
        · rename_i same
          cases wildcard with
          | none => exact splits_single_cons.trans (and_iff_right same)
          | some mark => exact Iff.rfl
        · rename_i different
          exact retry_keeps fun fits => different (splits_single_cons.mp fits).1

theorem likeLoop_iff (attempt : Attempt) : likeLoop attempt = true ↔ attempt.Answers := by
  induction attempt using likeLoop.induct with
  | case1 attempt next stepped ih =>
    have keeps := attempt.step_keeps
    rw [stepped] at keeps
    change attempt.Answers ↔ next.Answers at keeps
    rw [likeLoop, keeps, <- ih]
    split
    · rename_i other again
      rw [stepped] at again
      cases again
      rfl
    · rename_i other again
      rw [stepped] at again
      cases again
  | case2 attempt answer stepped =>
    have keeps := attempt.step_keeps
    rw [stepped] at keeps
    change attempt.Answers ↔ answer = true at keeps
    rw [likeLoop, keeps]
    split
    · rename_i other again
      rw [stepped] at again
      cases again
    · rename_i other again
      rw [stepped] at again
      cases again
      rfl

/-! ## The language of a pattern -/

/-- How a pattern spells a token: the wildcards by themselves, and a character by itself, when
none of these is the escape, or any character behind the escape. -/
inductive Token.Spelled (escape : Option Char) : Token -> List Char -> Prop where
  | any (plain : some '%' ≠ escape) : Spelled escape .any ['%']
  | one (plain : some '_' ≠ escape) : Spelled escape .one ['_']
  | plain {c : Char} (ordinary : some c ≠ escape) (notAny : c ≠ '%') (notOne : c ≠ '_') :
      Spelled escape (.literal c) [c]
  | escaped {e c : Char} (isEscape : some e = escape) : Spelled escape (.literal c) [e, c]

/-- The pattern is these tokens, one after the other. -/
def Spells (escape : Option Char) (pattern : List Char) (tokens : List Token) : Prop :=
  ∃ spellings : List (List Char), spellings.flatten = pattern ∧
    List.Forall₂ (Token.Spelled escape) tokens spellings

/-- The pattern is tokens and then an escape that nothing follows. -/
def Dangling (escape : Option Char) (pattern : List Char) : Prop :=
  ∃ body tokens c, pattern = body ++ [c] ∧ some c = escape ∧ Spells escape body tokens

theorem compilePattern_spelled {front : List Char} (spelled : token.Spelled escape front) :
    compilePattern escape (front ++ chars) = (compilePattern escape chars).map (token :: ·) := by
  rw [compilePattern.eq_def]
  cases spelled with
  | any plain => exact (if_neg plain).trans (if_pos rfl)
  | one plain => exact (if_neg plain).trans ((if_neg (by decide)).trans (if_pos rfl))
  | plain ordinary notAny notOne =>
    exact (if_neg ordinary).trans ((if_neg notAny).trans (if_neg notOne))
  | escaped isEscape => exact if_pos isEscape

theorem compilePattern_append {body : List Char} (spells : Spells escape body tokens) :
    compilePattern escape (body ++ chars) = (compilePattern escape chars).map (tokens ++ ·) := by
  obtain ⟨spellings, rfl, spelled⟩ := spells
  induction spelled with
  | nil => simp
  | cons first _ ih =>
    rw [flatten_cons, append_assoc, compilePattern_spelled first, ih, Option.map_map]
    rfl

/-- What a pattern compiles to spells it. -/
theorem spells_of_compilePattern (compiled : compilePattern escape chars = some tokens) :
    Spells escape chars tokens := by
  have next {token : Token} {front rest : List Char} (spelled : token.Spelled escape front)
      (ih : ∀ {tokens}, compilePattern escape rest = some tokens -> Spells escape rest tokens)
      {tokens : List Token} (compiled : (compilePattern escape rest).map (token :: ·) = some tokens) :
      Spells escape (front ++ rest) tokens := by
    obtain ⟨later, isLater, rfl⟩ := map_eq_some_iff.mp compiled
    obtain ⟨spellings, rfl, more⟩ := ih isLater
    exact ⟨front :: spellings, flatten_cons, .cons spelled more⟩
  induction chars using compilePattern.induct escape generalizing tokens with
  | case1 =>
    cases compiled
    exact ⟨[], rfl, .nil⟩
  | case2 c isEscape =>
    rw [compilePattern, if_pos isEscape] at compiled
    cases compiled
  | case3 c isEscape following chars ih =>
    rw [compilePattern, if_pos isEscape] at compiled
    exact next (.escaped isEscape) ih compiled
  | case4 chars ordinary ih =>
    exact next (.any ordinary) ih (compilePattern_spelled (.any ordinary) ▸ compiled)
  | case5 chars ordinary notAny ih =>
    exact next (.one ordinary) ih (compilePattern_spelled (.one ordinary) ▸ compiled)
  | case6 c chars ordinary notAny notOne ih =>
    have spelled : Token.Spelled escape (.literal c) [c] := .plain ordinary notAny notOne
    exact next spelled ih (compilePattern_spelled spelled ▸ compiled)

/-- A pattern compiles to the tokens that spell it, and to no others. -/
theorem compilePattern_eq_some : compilePattern escape chars = some tokens ↔
    Spells escape chars tokens := by
  refine ⟨spells_of_compilePattern, fun spells => ?_⟩
  have compiled : compilePattern escape (chars ++ []) = _ := compilePattern_append spells
  rw [append_nil] at compiled
  exact compiled.trans (by simp [compilePattern])

/-- Nothing spells a pattern that ends in a dangling escape. -/
theorem Dangling.compilePattern_eq (dangling : Dangling escape chars) :
    compilePattern escape chars = none := by
  obtain ⟨body, tokens, c, rfl, isEscape, spells⟩ := dangling
  rw [compilePattern_append spells, compilePattern, if_pos isEscape]
  rfl

/-- The characters a token takes. -/
def Token.Takes : Token -> List Char -> Prop
  | .any, _ => True
  | .one, part => ∃ c, part = [c]
  | .literal pattern, part => ∃ c, part = [c] ∧ pattern.toLower = c.toLower

theorem takes_piece (token : Token) (part : List Char) : token.piece.Takes part ↔ token.Takes part := by
  cases token with
  | any => exact Iff.rfl
  | one => simp [Token.piece, Piece.Takes, Token.Takes]
  | literal pattern =>
    have folded (c : Char) : likeCharEq pattern c = true ↔ pattern.toLower = c.toLower := by
      simp only [likeCharEq, Bool.or_eq_true, beq_iff_eq, or_iff_right_iff_imp]
      exact congrArg Char.toLower
    simp [Token.piece, Piece.Takes, Token.Takes, folded]

theorem splits_pieces (tokens : List Token) (text : List Char) :
    Splits (tokens.map Token.piece) text ↔
      ∃ parts : List (List Char), parts.flatten = text ∧ List.Forall₂ Token.Takes tokens parts := by
  unfold Splits
  simp only [forall₂_map_left_iff, takes_piece]

/-- `LIKE` answers whether the text is in the language of its pattern: the pattern does not
end in a dangling escape, it is spelled by tokens, and the text splits into parts these take in
order. -/
theorem likeMatches_iff (pattern text : String) (escape : Option Char) :
    likeMatches pattern text escape = true ↔ ¬ Dangling escape pattern.toList ∧
        ∃ tokens parts, Spells escape pattern.toList tokens ∧
          parts.flatten = text.toList ∧ List.Forall₂ Token.Takes tokens parts := by
  simp only [<- compilePattern_eq_some]
  unfold likeMatches
  cases compiled : compilePattern escape pattern.toList with
  | none => simp
  | some tokens =>
    have whole : ¬ Dangling escape pattern.toList := fun dangling => by
      rw [dangling.compilePattern_eq] at compiled
      cases compiled
    have language := (likeLoop_iff ⟨tokens, text.toList, none, nofun⟩).trans
      (splits_pieces tokens text.toList)
    simpa [whole] using language

/-- An escaped wildcard is the character, and a plain one a run. -/
theorem escaped_percent_matches : likeMatches "50!%%" "50% of it" (some '!') = true :=
  (likeMatches_iff _ _ _).mpr ⟨by
    rintro ⟨body, tokens, c, same, isEscape, -⟩
    obtain rfl := Option.some.inj isEscape
    have last := congrArg List.getLast? same
    simp at last,
    [.literal '5', .literal '0', .literal '%', .any], [['5'], ['0'], ['%'], " of it".toList],
    ⟨[['5'], ['0'], ['!', '%'], ['%']], by decide, by
      refine .cons (.plain ?_ ?_ ?_) (.cons (.plain ?_ ?_ ?_) (.cons (.escaped rfl)
        (.cons (.any ?_) .nil))) <;> decide⟩,
    by decide, .cons ⟨_, rfl, rfl⟩ (.cons ⟨_, rfl, rfl⟩ (.cons ⟨_, rfl, rfl⟩ (.cons trivial .nil)))⟩

end InlaySql.Eval.Like
