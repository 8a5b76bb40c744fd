import Mathlib.Data.List.DropRight
import LeafStore.PageToken
/-!
Page tokens. The key of every token is read back, whatever characters it is made of, and nothing is
read as a key but its token, with or without padding.
-/
namespace LeafStore

namespace Text.Base64

theorem octets_sextets (bytes : List Nat) (small : ∀ byte ∈ bytes, byte < 256) :
    octets (sextets bytes) = some bytes := by
  fun_induction sextets bytes with
  | case1 a b c rest ih =>
    have others := ih fun byte there =>
      small byte (List.mem_cons_of_mem _ (List.mem_cons_of_mem _ (List.mem_cons_of_mem _ there)))
    have ha := small a (by simp)
    have hb := small b (by simp)
    have hc := small c (by simp)
    have first : a / 4 * 4 + (a % 4 * 16 + b / 16) / 16 = a := by omega
    have second : (a % 4 * 16 + b / 16) % 16 * 16 + (b % 16 * 4 + c / 64) / 4 = b := by omega
    have third : (b % 16 * 4 + c / 64) % 4 * 64 + c % 64 = c := by omega
    simp only [octets, others, first, second, third]
    rfl
  | case2 a b =>
    have ha := small a (by simp)
    have hb := small b (by simp)
    have first : a / 4 * 4 + (a % 4 * 16 + b / 16) / 16 = a := by omega
    have second : (a % 4 * 16 + b / 16) % 16 * 16 + b % 16 * 4 / 4 = b := by omega
    have last : b % 16 * 4 % 4 = 0 := by omega
    simp only [octets, first, second, last, if_true]
  | case3 a =>
    have first : a / 4 * 4 + a % 4 * 16 / 16 = a := by omega
    have last : a % 4 * 16 % 16 = 0 := by omega
    simp only [octets, first, last, if_true]
  | case4 => rfl

theorem sextets_small (bytes : List Nat) (small : ∀ byte ∈ bytes, byte < 256) :
    ∀ value ∈ sextets bytes, value < 64 := by
  fun_induction sextets bytes with
  | case1 a b c rest ih =>
    have others := ih fun byte there =>
      small byte (List.mem_cons_of_mem _ (List.mem_cons_of_mem _ (List.mem_cons_of_mem _ there)))
    have ha := small a (by simp)
    have hb := small b (by simp)
    have hc := small c (by simp)
    intro value there
    simp only [List.mem_cons] at there
    rcases there with rfl | rfl | rfl | rfl | there
    · omega
    · omega
    · omega
    · omega
    · exact others value there
  | case2 a b =>
    have ha := small a (by simp)
    have hb := small b (by simp)
    intro value there
    simp only [List.mem_cons, List.not_mem_nil, or_false] at there
    omega
  | case3 a =>
    have ha := small a (by simp)
    intro value there
    simp only [List.mem_cons, List.not_mem_nil, or_false] at there
    omega
  | case4 => exact List.forall_mem_nil _

theorem mapM_digitValue? (values : List Nat) (small : ∀ value ∈ values, value < 64) :
    (values.map encodeDigit).mapM digitValue? = some values := by
  induction values with
  | nil => rfl
  | cons value rest ih =>
    rw [List.map_cons, List.mapM_cons,
      digitValue?_encodeDigit value (small value (List.mem_cons_self ..)),
      ih fun other ho => small other (List.mem_cons_of_mem _ ho)]
    rfl

theorem toNat_small (bytes : List UInt8) : ∀ byte ∈ bytes.map UInt8.toNat, byte < 256 := by
  intro byte there
  obtain ⟨b, _, rfl⟩ := List.mem_map.mp there
  exact b.toNat_lt

theorem decode?_encode (bytes : List UInt8) : decode? (encode bytes) = some bytes := by
  have small := toNat_small bytes
  have values : (bytes.map UInt8.toNat).map UInt8.ofNat = bytes := by
    rw [List.map_map]
    exact (List.map_congr_left fun b _ => UInt8.ofNat_toNat).trans (List.map_id _)
  simp only [decode?, encode, mapM_digitValue? _ (sextets_small _ small), octets_sextets _ small,
    bind, Option.bind, values]
  rfl

theorem encodeDigit_of_digitValue? {c : Char} {value : Nat} (read : digitValue? c = some value) :
    encodeDigit value = c ∧ value < 64 := by
  unfold digitValue? at read
  split at read
  · rename_i letter
    have low : 65 ≤ c.toNat := letter.1
    have high : c.toNat ≤ 90 := letter.2
    have code : 65 + (c.toNat - 65) = c.toNat := by omega
    cases read
    exact ⟨by simp [encodeDigit, show c.toNat - 65 < 26 by omega, code], by omega⟩
  · split at read
    · rename_i letter
      have low : 97 ≤ c.toNat := letter.1
      have high : c.toNat ≤ 122 := letter.2
      have code : 71 + (c.toNat - 71) = c.toNat := by omega
      cases read
      have first : ¬ c.toNat - 71 < 26 := by omega
      have second : c.toNat - 71 < 52 := by omega
      exact ⟨by simp [encodeDigit, first, second, code], by omega⟩
    · split at read
      · rename_i digit
        have low : 48 ≤ c.toNat := digit.1
        have high : c.toNat ≤ 57 := digit.2
        cases read
        have first : ¬ c.toNat + 4 < 26 := by omega
        have second : ¬ c.toNat + 4 < 52 := by omega
        have third : c.toNat + 4 < 62 := by omega
        exact ⟨by simp [encodeDigit, first, second, third], by omega⟩
      · split at read
        · rename_i dash
          cases read
          exact ⟨dash.symm, by decide⟩
        · split at read
          · rename_i score
            cases read
            exact ⟨score.symm, by decide⟩
          · cases read

theorem sextets_octets {values bytes : List Nat} (small : ∀ value ∈ values, value < 64)
    (read : octets values = some bytes) :
    sextets bytes = values ∧ ∀ byte ∈ bytes, byte < 256 := by
  fun_induction octets values generalizing bytes with
  | case1 a b c d rest ih =>
    simp only [List.forall_mem_cons] at small
    obtain ⟨ha, hb, hc, hd, others⟩ := small
    obtain ⟨after, found, same⟩ := Option.bind_eq_some_iff.mp read
    obtain ⟨back, bounds⟩ := ih others found
    cases same
    have first : (a * 4 + b / 16) / 4 = a := by omega
    have second : (a * 4 + b / 16) % 4 * 16 + (b % 16 * 16 + c / 4) / 16 = b := by omega
    have third : (b % 16 * 16 + c / 4) % 16 * 4 + (c % 4 * 64 + d) / 64 = c := by omega
    have fourth : (c % 4 * 64 + d) % 64 = d := by omega
    simp only [sextets, first, second, third, fourth, back, List.forall_mem_cons, true_and]
    exact ⟨by omega, by omega, by omega, bounds⟩
  | case2 a b c zeros =>
    simp only [List.forall_mem_cons] at small
    cases read
    have first : (a * 4 + b / 16) / 4 = a := by omega
    have second : (a * 4 + b / 16) % 4 * 16 + (b % 16 * 16 + c / 4) / 16 = b := by omega
    have third : (b % 16 * 16 + c / 4) % 16 * 4 = c := by omega
    simp only [sextets, first, second, third, List.forall_mem_cons, true_and]
    exact ⟨by omega, by omega, List.forall_mem_nil _⟩
  | case3 => cases read
  | case4 a b zeros =>
    simp only [List.forall_mem_cons] at small
    cases read
    have first : (a * 4 + b / 16) / 4 = a := by omega
    have second : (a * 4 + b / 16) % 4 * 16 = b := by omega
    simp only [sextets, first, second, List.forall_mem_cons, true_and]
    exact ⟨by omega, List.forall_mem_nil _⟩
  | case5 => cases read
  | case6 => cases read
  | case7 =>
    cases read
    exact ⟨rfl, List.forall_mem_nil _⟩

theorem map_encodeDigit {chars : List Char} {values : List Nat}
    (read : chars.mapM digitValue? = some values) :
    values.map encodeDigit = chars ∧ ∀ value ∈ values, value < 64 := by
  induction chars generalizing values with
  | nil =>
    cases read
    exact ⟨rfl, List.forall_mem_nil _⟩
  | cons c rest ih =>
    simp only [List.mapM_cons, Option.bind_eq_bind, Option.bind_eq_some_iff] at read
    obtain ⟨value, digit, others, found, same⟩ := read
    cases same
    obtain ⟨here, small⟩ := encodeDigit_of_digitValue? digit
    obtain ⟨back, bounds⟩ := ih found
    simpa [here, small, back] using bounds

/-- Only the text of bytes is read as them. -/
theorem encode_of_decode? {chars : List Char} {bytes : List UInt8}
    (read : decode? chars = some bytes) : encode bytes = chars := by
  simp only [decode?, Option.bind_eq_bind, Option.bind_eq_some_iff] at read
  obtain ⟨values, digits, octets, groups, same⟩ := read
  cases same
  obtain ⟨back, small⟩ := map_encodeDigit digits
  obtain ⟨sixes, bounds⟩ := sextets_octets small groups
  have bytes : (octets.map UInt8.ofNat).map UInt8.toNat = octets := by
    rw [List.map_map]
    refine (List.map_congr_left fun byte there => ?_).trans (List.map_id _)
    exact UInt8.toNat_ofNat_of_lt' (bounds byte there)
  rw [encode, bytes, sixes, back]

theorem safe_of_mem_encode {bytes : List UInt8} {c : Char} (there : c ∈ encode bytes) :
    c.isAlphanum = true ∨ c = '-' ∨ c = '_' := by
  obtain ⟨value, listed, rfl⟩ := List.mem_map.mp there
  have every : ∀ v : Fin 64, (encodeDigit v).isAlphanum = true ∨ encodeDigit v = '-' ∨
      encodeDigit v = '_' := by decide
  exact every ⟨value, sextets_small _ (toNat_small bytes) value listed⟩

end Text.Base64

namespace PageToken

def padded (token : String) (padding : Nat) : String :=
  token ++ String.ofList (List.replicate padding '=')

@[simp] theorem toList_padded (token : String) (padding : Nat) :
    (padded token padding).toList = token.toList ++ List.replicate padding '=' := by
  simp [padded]

@[simp] theorem toList_encode (key : String) :
    (encode key).toList = Text.Base64.encode key.toUTF8.data.toList := by
  simp [encode]

theorem safe_encode (key : String) :
    ∀ c ∈ (encode key).toList, c.isAlphanum = true ∨ c = '-' ∨ c = '_' := by
  intro c there
  rw [toList_encode] at there
  exact Text.Base64.safe_of_mem_encode there

theorem padding_not_mem_encode (key : String) : '=' ∉ (encode key).toList := by
  intro there
  have safe := safe_encode key '=' there
  exact absurd safe (by decide)

theorem withoutPadding_padded (key : String) (padding : Nat) :
    withoutPadding (padded (encode key) padding) = (encode key).toList := by
  show (padded (encode key) padding).toList.rdropWhile (· = '=') = _
  rw [toList_padded]
  induction padding with
  | zero =>
    simp only [List.replicate_zero, List.append_nil, List.rdropWhile_eq_self_iff, decide_eq_true_eq]
    intro filled last
    exact padding_not_mem_encode key (last ▸ List.getLast_mem filled)
  | succ padding ih =>
    rw [List.replicate_succ', ← List.append_assoc, List.rdropWhile_concat_pos _ _ _ (by simp), ih]

theorem exists_padded (token : String) :
    ∃ padding, token = padded (String.ofList (withoutPadding token)) padding := by
  have parts : withoutPadding token ++ token.toList.rtakeWhile (· = '=') = token.toList :=
    List.rdropWhile_append_rtakeWhile
  have tail := List.eq_replicate_of_mem (l := token.toList.rtakeWhile (· = '=')) fun c there => by
    simpa using List.mem_rtakeWhile_imp there
  refine ⟨(token.toList.rtakeWhile (· = '=')).length, String.toList_inj.mp ?_⟩
  rw [toList_padded, String.toList_ofList, ← tail, parts]

@[simp] theorem decode_padded (key : String) (padding : Nat) :
    decode (padded (encode key) padding) = .ok key := by
  have text : String.fromUTF8? ⟨key.toUTF8.data.toList.toArray⟩ = some key :=
    dif_pos key.isValidUTF8
  simp only [decode, withoutPadding_padded, toList_encode, Text.Base64.decode?_encode, text]

@[simp] theorem decode_encode (key : String) : decode (encode key) = .ok key := by
  simpa [padded] using decode_padded key 0

@[simp] theorem mapM_decode_encode {key : Option String} : (key.map encode).mapM decode = .ok key := by
  cases key with
  | none => rfl
  | some key =>
    rw [Option.map_some, Option.mapM_some, decode_encode]
    rfl

theorem encode_of_decode {token key : String} (read : decode token = .ok key) :
    encode key = String.ofList (withoutPadding token) := by
  unfold decode at read
  split at read
  · cases read
  · rename_i bytes found
    split at read
    · cases read
    · rename_i text decoded
      cases read
      have whole : key.toUTF8 = ⟨bytes.toArray⟩ := by
        unfold String.fromUTF8? at decoded
        split at decoded
        · cases decoded
          rfl
        · cases decoded
      rw [encode, whole, Text.Base64.encode_of_decode? found]

/-- A token is read as a key exactly if it is the token of that key with padding behind it. -/
theorem decode_eq_ok_iff (token key : String) :
    decode token = .ok key ↔ ∃ padding, token = padded (encode key) padding := by
  constructor
  · intro read
    rw [encode_of_decode read]
    exact exists_padded token
  · rintro ⟨padding, rfl⟩
    exact decode_padded key padding

@[simp] theorem encode_inj {key other : String} : encode key = encode other ↔ key = other := by
  constructor
  · intro same
    have read := decode_encode key
    rw [same, decode_encode other] at read
    exact (Except.ok.inj read).symm
  · exact congrArg encode

end PageToken

end LeafStore
