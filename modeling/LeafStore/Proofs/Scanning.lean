import Mathlib.Data.List.Chain
import LeafStore.Proofs.Lexemes
/-!
Texts as tokens with blanks around them. A text is read as the tokens that it spells, whatever
their spellings and the blanks.
-/
namespace LeafStore.Json

def Token.marks : List (Char × Token) :=
  [('[', .openArray), (']', .closeArray), ('\x7b', .openObject), ('\x7d', .closeObject),
    (':', .colon), (',', .comma)]

def Token.words : List (List Char × Token) :=
  [("null".toList, .null), ("true".toList, .bool true), ("false".toList, .bool false)]

/-- Tokens that are written with letters and digits, so that two of them would run together. -/
def Token.isWord : Token → Bool
  | .null | .bool _ | .number _ => true
  | _ => false

inductive Token.Spelling : List Char → Token → Prop where
  | mark {c : Char} {token : Token} : (c, token) ∈ marks → Spelling [c] token
  | word {chars : List Char} {token : Token} : (chars, token) ∈ words → Spelling chars token
  | number {chars : List Char} {n : Numeral} : n.Spells chars → Spelling chars (.number n)
  | text {chars : List Char} {s : String} : SpellsText chars s → Spelling chars (.text s true)

def blanks : List Char := [' ', '\t', '\n', '\r']

def Blank (chars : List Char) : Prop := ∀ c ∈ chars, c ∈ blanks

/-- How tokens are written: one after the other, with blanks around them. -/
inductive Spelled : List Char → List Token → Prop where
  | done {blank : List Char} : Blank blank → Spelled blank []
  | token {blank piece rest : List Char} {token : Token} {tokens : List Token} : Blank blank →
      token.Spelling piece → Spelled rest tokens →
      Spelled (blank ++ (piece ++ rest)) (token :: tokens)

section Scanning

variable {policy : Policy} {stage : Stage}

theorem IsNumber.wordChars {digits : List Char} (h : IsNumber digits) :
    ∀ c ∈ digits, isWordChar c = true := by
  intro c there
  have digit := List.all_eq_true.mp h.2 c there
  simp [isWordChar, Char.isAlphanum, digit]

theorem Numeral.SpellsPower.wordChars {chars : List Char} {power : Option (Bool × List Char)}
    (spelled : SpellsPower chars power) : ∀ c ∈ chars, isWordChar c = true := by
  have letter : ∀ {mark : Char}, mark = 'e' ∨ mark = 'E' → isWordChar mark = true := by
    rintro mark (rfl | rfl) <;> rfl
  cases spelled with
  | absent => exact List.forall_mem_nil _
  | plain mark number => exact List.forall_mem_cons.mpr ⟨letter mark, number.wordChars⟩
  | plus mark number | minus mark number =>
    exact List.forall_mem_cons.mpr
      ⟨letter mark, List.forall_mem_cons.mpr ⟨rfl, number.wordChars⟩⟩

theorem Numeral.Spells.wordChars {chars : List Char} {n : Numeral} (spelled : n.Spells chars) :
    ∀ c ∈ chars, isWordChar c = true := by
  obtain ⟨power, spelledPower, rfl⟩ := spelled.text
  have sign : ∀ c ∈ signText n.negative, isWordChar c = true := by
    apply List.all_eq_true.mp
    cases n.negative <;> rfl
  have fraction : ∀ c ∈ fractionText n.fraction, isWordChar c = true := by
    cases digits : n.fraction with
    | none => exact List.forall_mem_nil _
    | some digits =>
      exact List.forall_mem_cons.mpr ⟨rfl, (spelled.fraction _ digits).wordChars⟩
  simp only [List.forall_mem_append]
  exact ⟨sign, spelled.whole.wordChars, fraction, spelledPower.wordChars⟩

theorem Numeral.Spells.ne_nil {chars : List Char} {n : Numeral} (spelled : n.Spells chars) :
    chars ≠ [] := by
  obtain ⟨power, _, rfl⟩ := spelled.text
  simp [spelled.whole.1]

theorem Numeral.Spells.wordToken {chars : List Char} {n : Numeral} (spelled : n.Spells chars) :
    wordToken? chars = some (.number n) := by
  have read := Numeral.read_eq spelled
  have other : ∀ word ∈ Token.words, chars ≠ word.1 := by
    rintro word there rfl
    have none : ∀ word ∈ Token.words, Numeral.read word.1 = none := by decide
    rw [none word there] at read
    cases read
  simp only [Token.words, List.forall_mem_cons] at other
  obtain ⟨null, yes, no, _⟩ := other
  simp only [wordToken?, if_neg null, if_neg yes, if_neg no, read, Option.map_some]

theorem Token.Spelling.wordToken {piece : List Char} {token : Token}
    (spelled : token.Spelling piece) (word : token.isWord = true) :
    piece ≠ [] ∧ (∀ c ∈ piece, isWordChar c = true) ∧ wordToken? piece = some token := by
  cases spelled with
  | mark listed =>
    have none : ∀ mark ∈ marks, mark.2.isWord = false := by decide
    simp [none _ listed] at word
  | word listed =>
    have every : ∀ word ∈ words, word.1 ≠ [] ∧ word.1.all isWordChar = true ∧
        wordToken? word.1 = some word.2 := by decide
    obtain ⟨filled, all, read⟩ := every _ listed
    exact ⟨filled, List.all_eq_true.mp all, read⟩
  | number numeral => exact ⟨numeral.ne_nil, numeral.wordChars, numeral.wordToken⟩
  | text _ => cases word

theorem Reading.run_word {chars word : List Char} (every : ∀ c ∈ chars, isWordChar c = true) :
    Reading.run policy ⟨.word word, stage⟩ chars = .ok ⟨.word (chars.reverse ++ word), stage⟩ := by
  induction chars generalizing word with
  | nil => rfl
  | cons c rest ih =>
    obtain ⟨first, others⟩ := List.forall_mem_cons.mp every
    have goesOn : (Pending.word word).step c = some (.word (c :: word), []) := by
      simp [Pending.step, first]
    rw [run_cons _ (step_silent goesOn), ih others]
    simp

theorem Pending.start_word {c : Char} (h : isWordChar c = true) :
    start c = some (.word [c], []) := by
  have other : ∀ d ∈ '"' :: blanks, c ≠ d := by
    rintro d there rfl
    have none : ('"' :: blanks).any isWordChar = false := rfl
    exact List.any_eq_false.mp none c there h
  simp only [blanks, List.forall_mem_cons] at other
  simp [start, isBlank, other, h]

theorem Reading.run_wholeWord {chars : List Char} (filled : chars ≠ [])
    (every : ∀ c ∈ chars, isWordChar c = true) :
    Reading.run policy ⟨.nothing, stage⟩ chars = .ok ⟨.word chars.reverse, stage⟩ := by
  cases chars with
  | nil => exact absurd rfl filled
  | cons c rest =>
    obtain ⟨first, others⟩ := List.forall_mem_cons.mp every
    have begins : Pending.nothing.step c = some (.word [c], []) := Pending.start_word first
    rw [run_cons _ (step_silent begins), run_word others, List.reverse_cons]

theorem Reading.run_blank {blank : List Char} (h : Blank blank) :
    Reading.run policy ⟨.nothing, stage⟩ blank = .ok ⟨.nothing, stage⟩ := by
  induction blank with
  | nil => rfl
  | cons c rest ih =>
    obtain ⟨first, others⟩ := List.forall_mem_cons.mp h
    have every : ∀ c ∈ blanks, Pending.nothing.step c = some (.nothing, []) := by
      simp [blanks, Pending.step, Pending.start, isBlank]
    rw [run_cons _ (step_silent (every c first)), ih others]

@[simp] theorem Reading.take_cons (token : Token) (tokens : List Token) :
    take policy stage (token :: tokens) =
      (stage.read policy token).bind fun next => take policy next tokens := rfl

def Reading.outcome (policy : Policy) (r : Reading) (chars : List Char) : Except Fault Tree :=
  (r.run policy chars).bind (Reading.finish policy)

theorem Reading.outcome_append (r : Reading) (first others : List Char) :
    r.outcome policy (first ++ others) =
      (r.run policy first).bind fun next => next.outcome policy others := by
  simp only [outcome, run, List.foldlM_append]
  cases List.foldlM (step policy) r first <;> rfl

def endsWord (c : Char) : Bool := !isWordChar c && (Pending.start c).isSome

theorem Token.Spelling.ends {piece : List Char} {token : Token} (spelled : token.Spelling piece)
    (other : token.isWord = false) : ∃ c rest, piece = c :: rest ∧ endsWord c = true := by
  cases spelled with
  | mark listed =>
    have every : ∀ mark ∈ marks, endsWord mark.1 = true := by decide
    exact ⟨_, [], rfl, every (_, _) listed⟩
  | word listed =>
    have every : ∀ word ∈ words, word.2.isWord = true := by decide
    rw [every _ listed] at other
    cases other
  | number _ => cases other
  | text quoted =>
    obtain ⟨pieces, _, rfl⟩ := quoted
    exact ⟨'"', _, rfl, rfl⟩

theorem Spelled.ends {chars : List Char} {tokens : List Token} (spelled : Spelled chars tokens)
    (other : ∀ token ∈ tokens.head?, token.isWord = false) :
    ∀ c ∈ chars.head?, endsWord c = true := by
  have every : ∀ c ∈ blanks, endsWord c = true := List.all_eq_true.mp rfl
  intro c first
  cases spelled with
  | done blank => exact every c (blank c (List.mem_of_mem_head? first))
  | @token blank piece rest token tokens isBlank spelledPiece _ =>
    cases blank with
    | nil =>
      obtain ⟨d, more, rfl, ends⟩ := spelledPiece.ends (other token rfl)
      cases first
      exact ends
    | cons d more =>
      cases first
      exact every c (isBlank c (List.mem_cons_self ..))

theorem Reading.outcome_wordEnd {piece rest : List Char} {token : Token}
    (read : wordToken? piece = some token) (ends : ∀ c ∈ rest.head?, endsWord c = true) :
    Reading.outcome policy ⟨.word piece.reverse, stage⟩ rest =
      (stage.read policy token).bind fun next => Reading.outcome policy ⟨.nothing, next⟩ rest := by
  cases rest with
  | nil =>
    have last : (Pending.word piece.reverse).finish = some [token] := by
      simp [Pending.finish, read]
    simp only [outcome, run, List.foldlM_nil, pure, Except.pure, bind_ok, finish, last,
      take_cons]
    cases stage.read policy token <;> rfl
  | cons c more =>
    have ended := ends c rfl
    simp only [endsWord, Bool.and_eq_true, Bool.not_eq_true', Option.isSome_iff_exists] at ended
    obtain ⟨other, ⟨after, tokens⟩, begins⟩ := ended
    have here : (Pending.word piece.reverse).step c = some (after, token :: tokens) := by
      simp [Pending.step, other, read, begins]
    have later : Pending.nothing.step c = some (after, tokens) := begins
    simp only [outcome, run, List.foldlM_cons, step, here, later, take_cons]
    cases stage.read policy token <;> rfl

/-- A token that is written is taken before what follows. -/
theorem Reading.outcome_piece {piece rest : List Char} {token : Token}
    (spelled : token.Spelling piece)
    (ends : token.isWord = true → ∀ c ∈ rest.head?, endsWord c = true) :
    Reading.outcome policy ⟨.nothing, stage⟩ (piece ++ rest) =
      (stage.read policy token).bind fun next => Reading.outcome policy ⟨.nothing, next⟩ rest := by
  cases word : token.isWord with
  | true =>
    obtain ⟨filled, every, read⟩ := spelled.wordToken word
    rw [outcome_append, run_wholeWord filled every]
    exact outcome_wordEnd read (ends word)
  | false =>
    have run : Reading.run policy ⟨.nothing, stage⟩ piece =
        (stage.read policy token).map (Reading.mk .nothing) := by
      cases spelled with
      | mark listed =>
        have every : ∀ mark ∈ Token.marks,
            Pending.nothing.step mark.1 = some (.nothing, [mark.2]) := by decide
        rw [run_single, step_one (every (_, _) listed)]
      | word listed =>
        have every : ∀ word ∈ Token.words, word.2.isWord = true := by decide
        rw [every (_, _) listed] at word
        cases word
      | number _ => cases word
      | text quoted => exact run_text quoted
    rw [outcome_append, run]
    cases stage.read policy token <;> rfl

/-- Two words side by side would be read as one. -/
def Apart (first second : Token) : Prop := first.isWord = true → second.isWord = false

/-- A text is read as the tokens that it spells. -/
theorem Reading.outcome_spelled {chars : List Char} {tokens : List Token}
    (spelled : Spelled chars tokens) (apart : tokens.IsChain Apart) (stage : Stage) :
    Reading.outcome policy ⟨.nothing, stage⟩ chars =
      (take policy stage tokens).bind Stage.result := by
  induction spelled generalizing stage with
  | done blank =>
    simp only [outcome, run_blank blank]
    rfl
  | @token blank piece rest token tokens isBlank spelledPiece others ih =>
    obtain ⟨next, apart⟩ := List.isChain_cons.mp apart
    have ends : token.isWord = true → ∀ c ∈ rest.head?, endsWord c = true := fun word =>
      others.ends fun after first => next after first word
    rw [outcome_append, run_blank isBlank, bind_ok, outcome_piece spelledPiece ends, take_cons]
    cases stage.read policy token with
    | error fault => rfl
    | ok after => exact ih apart after

end Scanning

end LeafStore.Json
