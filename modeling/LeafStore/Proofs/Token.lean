import LeafStore.Proofs.Results
import LeafStore.Table
/-!
Tokens of pages. The key in a token is read back from it, so a select goes on where the page before
it ended.
-/
namespace LeafStore

namespace Json

/-! Between quotes every character is read back from what is written for it. -/

theorem not_surrogate (c : Char) :
    isHighSurrogate c.toNat = false ∧ isLowSurrogate c.toNat = false := by
  have valid : c.toNat < 0xd800 ∨ 0xdfff < c.toNat ∧ c.toNat < 0x110000 := c.valid
  simp only [isHighSurrogate, isLowSurrogate, Bool.and_eq_false_iff, decide_eq_false_iff_not]
  omega

theorem unitsText_codes (chars : List Char) :
    unitsText (chars.map Char.toNat) = chars ∧ unitsPaired (chars.map Char.toNat) = true := by
  induction chars with
  | nil => exact ⟨rfl, rfl⟩
  | cons c rest ih =>
    obtain ⟨high, low⟩ := not_surrogate c
    cases rest with
    | nil => simp [unitsText, unitsPaired, high, low]
    | cons d more =>
      simp only [List.map_cons] at ih ⊢
      simp [unitsText, unitsPaired, high, low, ih]

variable {policy : Policy} {stage next : Stage}

theorem Reading.step_silent {pending after : Pending} {c : Char}
    (h : pending.step c = some (after, [])) :
    Reading.step policy ⟨pending, stage⟩ c = .ok ⟨after, stage⟩ := by
  simp only [Reading.step, h]
  rfl

theorem Reading.step_token {pending after : Pending} {c : Char} {token : Token}
    (h : pending.step c = some (after, [token])) (read : stage.read policy token = .ok next) :
    Reading.step policy ⟨pending, stage⟩ c = .ok ⟨after, next⟩ := by
  simp only [Reading.step, h, Reading.take, List.foldlM_cons, List.foldlM_nil, read]
  rfl

def Reading.run (policy : Policy) (r : Reading) (chars : List Char) : Except Fault Reading :=
  chars.foldlM (Reading.step policy) r

theorem Reading.run_cons {r after : Reading} {c : Char} (chars : List Char)
    (h : r.step policy c = .ok after) : r.run policy (c :: chars) = after.run policy chars := by
  simp only [Reading.run, List.foldlM_cons, h]
  rfl

theorem Reading.run_append {r after : Reading} {first : List Char} (others : List Char)
    (h : r.run policy first = .ok after) :
    r.run policy (first ++ others) = after.run policy others := by
  simp only [Reading.run, List.foldlM_append] at h ⊢
  simp only [h]
  rfl

theorem Reading.run_escapedChar (units : List Nat) (c : Char) :
    Reading.run policy ⟨.text units, stage⟩ (escapedChar c) =
      .ok ⟨.text (c.toNat :: units), stage⟩ := by
  unfold escapedChar
  split
  · rfl
  · rfl
  · rfl
  · rfl
  · rfl
  · rfl
  · rfl
  · rename_i quote backslash _ _ _ _ _
    split
    · rename_i control
      have high := Text.hexValue?_hexDigit (c.toNat / 16) (by omega)
      have low := Text.hexValue?_hexDigit (c.toNat % 16) (by omega)
      have whole : 16 * (c.toNat / 16) + c.toNat % 16 = c.toNat := by omega
      have first : (Pending.code units 0 1).step (Text.hexDigit (c.toNat / 16)) =
          some (.code units (c.toNat / 16) 0, []) := by
        simp [Pending.step, high]
      have second : (Pending.code units (c.toNat / 16) 0).step (Text.hexDigit (c.toNat % 16)) =
          some (.text (c.toNat :: units), []) := by
        simp [Pending.step, low, whole]
      have start : Reading.run policy ⟨.text units, stage⟩ ['\\', 'u', '0', '0'] =
          .ok ⟨.code units 0 1, stage⟩ := rfl
      rw [show ['\\', 'u', '0', '0', Text.hexDigit (c.toNat / 16), Text.hexDigit (c.toNat % 16)] =
        ['\\', 'u', '0', '0'] ++ [Text.hexDigit (c.toNat / 16), Text.hexDigit (c.toNat % 16)]
        from rfl, run_append _ start, run_cons _ (step_silent first),
        run_cons _ (step_silent second)]
      rfl
    · rename_i plain
      have here : (Pending.text units).step c = some (.text (c.toNat :: units), []) := by
        simp only [Pending.step, if_neg (show ¬ c = '"' from quote),
          if_neg (show ¬ c = '\\' from backslash), if_neg plain]
      rw [run_cons _ (step_silent here)]
      rfl

theorem Reading.run_quotedText (s : String) (read : stage.read policy (.text s true) = .ok next) :
    Reading.run policy ⟨.nothing, stage⟩ (quotedText s) = .ok ⟨.nothing, next⟩ := by
  have inside : ∀ (chars : List Char) (units : List Nat),
      Reading.run policy ⟨.text units, stage⟩ (chars.flatMap escapedChar) =
        .ok ⟨.text ((chars.map Char.toNat).reverse ++ units), stage⟩ := by
    intro chars
    induction chars with
    | nil => exact fun _ => rfl
    | cons c rest ih =>
      intro units
      rw [List.flatMap_cons, run_append _ (run_escapedChar units c), ih]
      simp
  obtain ⟨codes, paired⟩ := unitsText_codes s.toList
  have token : unitsToken (s.toList.map Char.toNat).reverse = .text s true := by
    simp only [unitsToken, List.reverse_reverse, codes, paired, String.ofList_toList]
  have opened : Pending.nothing.step '"' = some (.text [], []) := rfl
  have closed : (Pending.text (s.toList.map Char.toNat).reverse).step '"' =
      some (.nothing, [.text s true]) := by
    simp [Pending.step, token]
  rw [quotedText, List.cons_append, run_cons _ (step_silent opened), run_append _ (inside _ [])]
  rw [List.append_nil, run_cons _ (step_token closed read)]
  rfl

theorem Reading.run_punctuation {c : Char} {token : Token} (chars : List Char)
    (h : Pending.nothing.step c = some (.nothing, [token]))
    (read : stage.read policy token = .ok next) :
    Reading.run policy ⟨.nothing, stage⟩ (c :: chars) =
      Reading.run policy ⟨.nothing, next⟩ chars :=
  run_cons chars (step_token h read)

theorem Reading.run_printItems (around : List Frame) (done : List Tree) (last : Tree)
    (texts : List String) :
    Reading.run .fields ⟨.nothing, .ended (.array done :: around) last⟩
        (printItems (texts.map .text)) =
      .ok ⟨.nothing, .ended around (.array ((last :: done).reverse ++ texts.map .text))⟩ := by
  induction texts generalizing done last with
  | nil =>
    rw [List.map_nil, printItems, run_punctuation [] rfl rfl, List.map_nil, List.append_nil]
    rfl
  | cons text rest ih =>
    have item : Stage.read .fields (.awaitValue (.array (last :: done) :: around)) (.text text true) =
        .ok (.ended (.array (last :: done) :: around) (.text text)) := rfl
    rw [List.map_cons, printItems, print, List.cons_append, run_punctuation _ rfl rfl,
      run_append _ (run_quotedText text item), ih]
    simp

theorem Reading.run_array (around : List Frame) (texts : List String) (few : around.length < 126) :
    Reading.run .fields ⟨.nothing, .awaitValue around⟩ (print (.array (texts.map .text))) =
      .ok ⟨.nothing, .ended around (.array (texts.map .text))⟩ := by
  have room : Policy.roomFor .fields around = true := by
    simp [Policy.roomFor, Policy.fields]
    omega
  have opened : Stage.read .fields (.awaitValue around) .openArray = .ok (.firstItem around) := by
    simp [Stage.read, Stage.beginValue, room]
  cases texts with
  | nil =>
    rw [List.map_nil, print, run_punctuation _ rfl opened, run_punctuation [] rfl rfl]
    rfl
  | cons text rest =>
    have item : Stage.read .fields (.firstItem around) (.text text true) =
        .ok (.ended (.array [] :: around) (.text text)) := rfl
    rw [List.map_cons, print, List.cons_append, run_punctuation _ rfl opened, print,
      run_append _ (run_quotedText text item), run_printItems]
    rfl

end Json

namespace Table

@[simp] theorem texts?_map (columns : List String) : texts? (columns.map .text) = some columns := by
  induction columns with
  | nil => rfl
  | cons column rest ih =>
    unfold texts? at ih ⊢
    rw [List.map_cons, List.mapM_cons, ih]
    rfl

@[simp] theorem itemValues_texts (texts : List String) :
    Json.Tree.itemValues (texts.map .text) = texts.map .text := by
  induction texts with
  | nil => rfl
  | cons text rest ih => rw [List.map_cons, Json.Tree.itemValues, ih, Json.Tree.value, List.map_cons]

theorem Key.ofToken_token (key : Key) : Key.ofToken key.token = .ok key := by
  obtain ⟨document, columns⟩ := key
  have few : [Json.Frame.array [.text document]].length < 126 := by
    rw [List.length_singleton]
    decide
  have item : Json.Stage.read .fields (.firstItem []) (.text document true) =
      .ok (.ended [.array []] (.text document)) := rfl
  have read : Json.Reading.run .fields Json.Reading.start
      (Json.array [.text document, .array (columns.map .text)]).print =
        .ok ⟨.nothing, .ended [] (.array [.text document, .array (columns.map .text)])⟩ := by
    rw [Json.print, List.cons_append, Json.Reading.start, Json.Reading.run_punctuation _ rfl rfl,
      Json.print, Json.Reading.run_append _ (Json.Reading.run_quotedText document item),
      Json.printItems, List.cons_append, Json.Reading.run_punctuation _ rfl rfl,
      Json.Reading.run_append _ (Json.Reading.run_array _ columns few)]
    rfl
  have tree : Json.Tree.ofText .fields (token (document, columns)) =
      .ok (.array [.text document, .array (columns.map .text)]) := by
    unfold Json.Reading.run at read
    simp only [Json.Tree.ofText, token, Json.compact, String.toList_ofList, read]
    rfl
  simp only [ofToken, Json.ofText, tree, map_ok, Json.Tree.value, Json.Tree.itemValues,
    itemValues_texts, texts?_map]

end Table

end LeafStore
