import Mathlib.Data.List.TakeDrop
import LeafStore.Proofs.Token
/-!
Numerals and quoted texts as JSON writes them, each read back from every text that spells it.
-/
namespace LeafStore.Json

/-! Numerals. -/

def IsNumber (digits : List Char) : Prop := digits ≠ [] ∧ digits.all Char.isDigit = true

theorem IsNumber.head {digits : List Char} (h : IsNumber digits) :
    ∃ c rest, digits = c :: rest ∧ c.isDigit = true := by
  obtain ⟨filled, all⟩ := h
  cases digits with
  | nil => exact absurd rfl filled
  | cons c rest => exact ⟨c, rest, rfl, List.all_eq_true.mp all c (List.mem_cons_self ..)⟩

namespace Numeral

def signText (negative : Bool) : List Char := if negative then ['-'] else []

def fractionText : Option (List Char) → List Char
  | none => []
  | some digits => '.' :: digits

/-- How a power of ten is written: its mark is a letter of either case, and a plus is optional. -/
inductive SpellsPower : List Char → Option (Bool × List Char) → Prop where
  | absent : SpellsPower [] none
  | plain {mark : Char} {digits : List Char} : mark = 'e' ∨ mark = 'E' → IsNumber digits →
      SpellsPower (mark :: digits) (some (false, digits))
  | plus {mark : Char} {digits : List Char} : mark = 'e' ∨ mark = 'E' → IsNumber digits →
      SpellsPower (mark :: '+' :: digits) (some (false, digits))
  | minus {mark : Char} {digits : List Char} : mark = 'e' ∨ mark = 'E' → IsNumber digits →
      SpellsPower (mark :: '-' :: digits) (some (true, digits))

structure Spells (chars : List Char) (n : Numeral) : Prop where
  text : ∃ power, SpellsPower power n.power ∧
    chars = signText n.negative ++ (n.whole ++ (fractionText n.fraction ++ power))
  whole : IsNumber n.whole
  /-- No zero stands before other digits. -/
  leading : n.whole.head? = some '0' → n.whole = ['0']
  fraction : ∀ digits ∈ n.fraction, IsNumber digits

theorem span_digits {digits rest : List Char} (all : digits.all Char.isDigit = true)
    (ends : ∀ c ∈ rest.head?, c.isDigit = false) :
    (digits ++ rest).span Char.isDigit = (digits, rest) := by
  have each : ∀ c ∈ digits, c.isDigit = true := List.all_eq_true.mp all
  have none : rest.takeWhile Char.isDigit = [] ∧ rest.dropWhile Char.isDigit = rest := by
    cases rest with
    | nil => simp
    | cons c rest => simp [ends c rfl]
  rw [List.span_eq_takeWhile_dropWhile, List.takeWhile_append_of_pos each,
    List.dropWhile_append_of_pos each, none.1, none.2, List.append_nil]

theorem readWhole_eq {n : Numeral} {chars rest : List Char} (spelled : n.Spells chars)
    (ends : ∀ c ∈ rest.head?, c.isDigit = false) :
    readWhole (n.whole ++ rest) = some (n.whole, rest) := by
  obtain ⟨c, others, whole, digit⟩ := spelled.whole.head
  have leading := spelled.leading
  rw [readWhole, span_digits spelled.whole.2 ends, whole]
  rw [whole] at leading
  split <;> simp_all

theorem readFraction_eq {fraction : Option (List Char)} {rest : List Char}
    (number : ∀ digits ∈ fraction, IsNumber digits)
    (ends : ∀ c ∈ rest.head?, c.isDigit = false ∧ c ≠ '.') :
    readFraction (fractionText fraction ++ rest) = some (fraction, rest) := by
  cases fraction with
  | none =>
    cases rest with
    | nil => rfl
    | cons c rest =>
      have other := (ends c rfl).2
      simp [fractionText, readFraction, other]
  | some digits =>
    have split := span_digits (number digits rfl).2 fun c hc => (ends c hc).1
    obtain ⟨c, others, rfl, _⟩ := (number digits rfl).head
    simp only [fractionText, List.cons_append, readFraction] at split ⊢
    rw [split]

theorem readPower_eq {chars : List Char} {power : Option (Bool × List Char)}
    (spelled : SpellsPower chars power) : readPower chars = some power := by
  have digits : ∀ {negative : Bool} {digits : List Char}, IsNumber digits →
      readPowerDigits negative digits = some (some (negative, digits)) := by
    intro negative digits number
    simp [readPowerDigits, number.1, number.2]
  cases spelled with
  | absent => rfl
  | plain letter number =>
    obtain ⟨c, rest, rfl, digit⟩ := number.head
    have minus : c ≠ '-' := by rintro rfl; cases digit
    have plus : c ≠ '+' := by rintro rfl; cases digit
    simp [readPower, letter, minus, plus, digits number]
  | plus letter number => simp [readPower, letter, digits number]
  | minus letter number => simp [readPower, letter, digits number]

theorem SpellsPower.head {chars : List Char} {power : Option (Bool × List Char)}
    (spelled : SpellsPower chars power) : ∀ c ∈ chars.head?, c.isDigit = false ∧ c ≠ '.' := by
  intro c first
  cases spelled with
  | absent => cases first
  | plain letter _ | plus letter _ | minus letter _ =>
    cases first
    rcases letter with rfl | rfl <;> decide

theorem fractionText_head {fraction : Option (List Char)} {rest : List Char}
    (ends : ∀ c ∈ rest.head?, c.isDigit = false ∧ c ≠ '.') :
    ∀ c ∈ (fractionText fraction ++ rest).head?, c.isDigit = false := by
  intro c first
  cases fraction with
  | none => exact (ends c first).1
  | some digits =>
    cases first
    rfl

theorem read_eq {chars : List Char} {n : Numeral} (spelled : n.Spells chars) :
    read chars = some n := by
  obtain ⟨power, spelledPower, rfl⟩ := spelled.text
  have ends := spelledPower.head
  have magnitude : readMagnitude n.negative
      (n.whole ++ (fractionText n.fraction ++ power)) = some n := by
    simp [readMagnitude, readWhole_eq spelled (fractionText_head ends),
      readFraction_eq spelled.fraction ends, readPower_eq spelledPower]
  cases sign : n.negative with
  | true =>
    rw [sign] at magnitude
    exact magnitude
  | false =>
    rw [sign] at magnitude
    obtain ⟨c, rest, whole, digit⟩ := spelled.whole.head
    have minus : c ≠ '-' := by
      rintro rfl
      cases digit
    rw [whole, List.cons_append] at magnitude ⊢
    simpa [signText, read, minus] using magnitude

end Numeral

/-! Texts between quotes. -/

/-- Four hexadecimal digits, of either case, and the unit that they spell. -/
inductive SpellsUnit : List Char → Nat → Prop where
  | digits {a b c d : Char} {w x y z : Nat} : Text.hexValue? a = some w →
      Text.hexValue? b = some x → Text.hexValue? c = some y → Text.hexValue? d = some z →
      SpellsUnit [a, b, c, d] (16 * (16 * (16 * w + x) + y) + z)

/-- Characters with an escape of two characters: what stands behind the backslash, and what is
meant. -/
def shortEscapes : List (Char × Char) :=
  [('"', '"'), ('\\', '\\'), ('/', '/'), ('b', '\x08'), ('f', '\x0c'), ('n', '\n'), ('r', '\r'),
    ('t', '\t')]

def highUnit (c : Char) : Nat := 0xd800 + (c.toNat - 0x10000) / 0x400

def lowUnit (c : Char) : Nat := 0xdc00 + (c.toNat - 0x10000) % 0x400

inductive SpellsChar : List Char → Char → Prop where
  | plain {c : Char} : c ≠ '"' → c ≠ '\\' → 0x20 ≤ c.toNat → SpellsChar [c] c
  | short {mark c : Char} : (mark, c) ∈ shortEscapes → SpellsChar ['\\', mark] c
  | code {digits : List Char} {c : Char} : SpellsUnit digits c.toNat →
      SpellsChar ('\\' :: 'u' :: digits) c
  /-- Two surrogates. -/
  | pair {high low : List Char} {c : Char} : 0x10000 ≤ c.toNat →
      SpellsUnit high (highUnit c) → SpellsUnit low (lowUnit c) →
      SpellsChar ('\\' :: 'u' :: high ++ '\\' :: 'u' :: low) c

def SpellsText (chars : List Char) (s : String) : Prop :=
  ∃ pieces, List.Forall₂ SpellsChar pieces s.toList ∧ chars = '"' :: pieces.flatten ++ ['"']

section Texts

variable {policy : Policy} {stage : Stage}

@[simp] theorem Reading.run_single (r : Reading) (c : Char) : r.run policy [c] = r.step policy c := by
  simp [Reading.run]

theorem Reading.step_one {pending after : Pending} {c : Char} {token : Token}
    (h : pending.step c = some (after, [token])) :
    Reading.step policy ⟨pending, stage⟩ c =
      (stage.read policy token).map (Reading.mk after) := by
  simp [Reading.step, h, Reading.take]

theorem Pending.step_code {units : List Nat} {value missing digit : Nat} {c : Char}
    (hex : Text.hexValue? c = some digit) : (Pending.code units value (missing + 1)).step c =
      some (.code units (16 * value + digit) missing, []) := by
  simp only [step, hex]
  rfl

theorem Pending.step_lastCode {units : List Nat} {value digit : Nat} {c : Char}
    (hex : Text.hexValue? c = some digit) : (Pending.code units value 0).step c =
      some (.text ((16 * value + digit) :: units), []) := by
  simp only [step, hex]
  rfl

theorem Reading.run_unit {digits : List Char} {unit : Nat} (spelled : SpellsUnit digits unit)
    (units : List Nat) :
    Reading.run policy ⟨.text units, stage⟩ ('\\' :: 'u' :: digits) =
      .ok ⟨.text (unit :: units), stage⟩ := by
  cases spelled with
  | digits ha hb hc hd =>
    have escape : (Pending.text units).step '\\' = some (.escape units, []) := rfl
    have begins : (Pending.escape units).step 'u' = some (.code units 0 3, []) := rfl
    rw [run_cons _ (step_silent escape), run_cons _ (step_silent begins),
      run_cons _ (step_silent (Pending.step_code ha)),
      run_cons _ (step_silent (Pending.step_code hb)),
      run_cons _ (step_silent (Pending.step_code hc)),
      run_cons _ (step_silent (Pending.step_lastCode hd)), Nat.mul_zero, Nat.zero_add]
    rfl

theorem unitsText_single (c : Char) (rest : List Nat) :
    unitsText (c.toNat :: rest) = c :: unitsText rest ∧
      unitsPaired (c.toNat :: rest) = unitsPaired rest := by
  obtain ⟨high, low⟩ := not_surrogate c
  cases rest <;> simp [unitsText, unitsPaired, high, low]

theorem unitsText_pair {c : Char} (wide : 0x10000 ≤ c.toNat) (rest : List Nat) :
    unitsText (highUnit c :: lowUnit c :: rest) = c :: unitsText rest ∧
      unitsPaired (highUnit c :: lowUnit c :: rest) = unitsPaired rest := by
  have valid : c.toNat < 0xd800 ∨ 0xdfff < c.toNat ∧ c.toNat < 0x110000 := c.valid
  have high : isHighSurrogate (highUnit c) = true := by
    have within : 0xd800 ≤ highUnit c ∧ highUnit c < 0xdc00 := by
      unfold highUnit
      omega
    simp [isHighSurrogate, within.1, within.2]
  have low : isLowSurrogate (lowUnit c) = true := by
    have within : 0xdc00 ≤ lowUnit c ∧ lowUnit c < 0xe000 := by
      unfold lowUnit
      omega
    simp [isLowSurrogate, within.1, within.2]
  have code : 0x10000 + (highUnit c - 0xd800) * 0x400 + (lowUnit c - 0xdc00) = c.toNat := by
    simp only [highUnit, lowUnit]
    omega
  simp [unitsText, unitsPaired, high, low, joinPair, code]

theorem Reading.run_plain {c : Char} (quote : c ≠ '"') (backslash : c ≠ '\\')
    (control : 0x20 ≤ c.toNat) (units : List Nat) :
    Reading.run policy ⟨.text units, stage⟩ [c] = .ok ⟨.text (c.toNat :: units), stage⟩ := by
  have here : (Pending.text units).step c = some (.text (c.toNat :: units), []) := by
    simp [Pending.step, quote, backslash, Nat.not_lt.mpr control]
  rw [run_cons _ (step_silent here)]
  rfl

theorem Reading.run_short {mark c : Char} (listed : (mark, c) ∈ shortEscapes) (units : List Nat) :
    Reading.run policy ⟨.text units, stage⟩ ['\\', mark] =
      .ok ⟨.text (c.toNat :: units), stage⟩ := by
  have every : ∀ escape ∈ shortEscapes, escape.1 ≠ 'u' ∧
      escapedUnit? escape.1 = some escape.2.toNat := by decide
  obtain ⟨other, unit⟩ := every _ listed
  have escape : (Pending.text units).step '\\' = some (.escape units, []) := rfl
  have ends : (Pending.escape units).step mark = some (.text (c.toNat :: units), []) := by
    simp [Pending.step, other, unit]
  rw [run_cons _ (step_silent escape), run_cons _ (step_silent ends)]
  rfl

/-- The units that a character adds to those gathered, and what they are read as. -/
theorem Reading.run_char {piece : List Char} {c : Char} (spelled : SpellsChar piece c) :
    ∃ added : List Nat,
      (∀ policy stage units, Reading.run policy ⟨.text units, stage⟩ piece =
        .ok ⟨.text (added.reverse ++ units), stage⟩) ∧
      ∀ rest, unitsText (added ++ rest) = c :: unitsText rest ∧
        unitsPaired (added ++ rest) = unitsPaired rest := by
  cases spelled with
  | plain quote backslash control =>
    exact ⟨[c.toNat], fun _ _ => run_plain quote backslash control, unitsText_single c⟩
  | short listed => exact ⟨[c.toNat], fun _ _ => run_short listed, unitsText_single c⟩
  | code unit => exact ⟨[c.toNat], fun _ _ => run_unit unit, unitsText_single c⟩
  | pair wide high low =>
    refine ⟨[_, _], fun policy stage units => ?_, unitsText_pair wide⟩
    exact (run_append _ (run_unit high units)).trans (run_unit low _)

theorem Reading.run_pieces {pieces : List (List Char)} {chars : List Char}
    (spelled : List.Forall₂ SpellsChar pieces chars) :
    ∃ added : List Nat,
      (∀ policy stage units, Reading.run policy ⟨.text units, stage⟩ pieces.flatten =
        .ok ⟨.text (added.reverse ++ units), stage⟩) ∧
      unitsText added = chars ∧ unitsPaired added = true := by
  induction spelled with
  | nil => exact ⟨[], fun _ _ _ => rfl, rfl, rfl⟩
  | cons first _ ih =>
    obtain ⟨units, run, text⟩ := run_char first
    obtain ⟨others, rest, same, paired⟩ := ih
    refine ⟨units ++ others, fun policy stage old => ?_, ?_, ?_⟩
    · rw [List.flatten_cons, run_append _ (run policy stage old), rest]
      simp
    · rw [(text others).1, same]
    · rw [(text others).2, paired]

theorem Reading.run_text {chars : List Char} {s : String} (spelled : SpellsText chars s) :
    Reading.run policy ⟨.nothing, stage⟩ chars =
      (stage.read policy (.text s true)).map (Reading.mk .nothing) := by
  obtain ⟨pieces, each, rfl⟩ := spelled
  obtain ⟨added, run, text, paired⟩ := run_pieces each
  have opened : Pending.nothing.step '"' = some (.text [], []) := rfl
  have token : unitsToken added.reverse = .text s true := by
    simp only [unitsToken, List.reverse_reverse, text, paired, String.ofList_toList]
  have closed : (Pending.text added.reverse).step '"' = some (.nothing, [.text s true]) := by
    simp [Pending.step, token]
  rw [List.cons_append, run_cons _ (step_silent opened), run_append _ (run policy stage []),
    List.append_nil, run_single, step_one closed]

end Texts

end LeafStore.Json
