import Mathlib.Tactic.Common
import PianoRoll.Text.Utf8

/-!
Decoding undoes encoding, and nothing else: bytes are decoded to a text just if they are that text
as it is encoded (`decodeBytes_eq_ok_iff`). A leading byte with the bytes it announces is one
character (`Leads.encode`), so the decoder goes from character to character.
-/

namespace PianoRoll.Text

/-! ## One character -/

/-- The bytes that a character misses: as many as are missing, the first of them within bounds. With
them the code point is whole. -/
def Completes : (missing low high code : Nat) → List UInt8 → Nat → Prop
  | 0, _, _, code, bs, n => bs = [] ∧ n = code
  | missing + 1, low, high, code, bs, n =>
    ∃ b tail, bs = b :: tail ∧ low ≤ b.toNat ∧ b.toNat ≤ high ∧
      Completes missing 0x80 0xBF (code * 64 + (b.toNat - 0x80)) tail n

/-- A leading byte with bytes that complete what it announces. -/
def Leads (b : UInt8) (tail : List UInt8) (n : Nat) : Prop :=
  (b.toNat < 0x80 ∧ tail = [] ∧ n = b.toNat) ∨
    0x80 ≤ b.toNat ∧ ∃ missing low high code,
      announced? b.toNat = some (missing, low, high, code) ∧ Completes missing low high code tail n

def bytesOf (n : Nat) : List Nat :=
  if n < 0x80 then [n]
  else if n < 0x800 then [n / 64 + 0xC0, n % 64 + 0x80]
  else if n < 0x10000 then [n / 4096 + 0xE0, n / 64 % 64 + 0x80, n % 64 + 0x80]
  else [n / 262144 + 0xF0, n / 4096 % 64 + 0x80, n / 64 % 64 + 0x80, n % 64 + 0x80]

theorem toNat_encode (c : Char) :
    (String.utf8EncodeChar c).map UInt8.toNat = bytesOf c.toNat := by
  have valid : c.toNat.isValidChar := c.valid
  have same : c.val.toNat = c.toNat := rfl
  simp only [String.utf8EncodeChar, bytesOf, same]
  split_ifs <;> simp <;> omega

theorem encode_eq_iff {c : Char} {bs : List UInt8} :
    String.utf8EncodeChar c = bs ↔ bytesOf c.toNat = bs.map UInt8.toNat := by
  rw [← toNat_encode, List.map_inj_right fun _ _ => UInt8.toNat_inj.1]

/-- What leading bytes announce, by the number of bytes that follow. -/
theorem announced?_eq_some_iff {n missing low high code : Nat} :
    announced? n = some (missing, low, high, code) ↔
      (missing = 1 ∧ 0xC2 ≤ n ∧ n ≤ 0xDF ∧ low = 0x80 ∧ high = 0xBF ∧ code = n - 0xC0) ∨
      (missing = 2 ∧ 0xE0 ≤ n ∧ n ≤ 0xEF ∧ low = (if n = 0xE0 then 0xA0 else 0x80) ∧
        high = (if n = 0xED then 0x9F else 0xBF) ∧ code = n - 0xE0) ∨
      (missing = 3 ∧ 0xF0 ≤ n ∧ n ≤ 0xF4 ∧ low = (if n = 0xF0 then 0x90 else 0x80) ∧
        high = (if n = 0xF4 then 0x8F else 0xBF) ∧ code = n - 0xF0) := by
  unfold announced?
  split_ifs <;> simp <;> omega

/-- A character is encoded as a leading byte with the bytes it announces. -/
theorem Leads.of_encode {c : Char} {b : UInt8} {tail : List UInt8}
    (h : String.utf8EncodeChar c = b :: tail) : Leads b tail c.toNat := by
  have valid : c.toNat.isValidChar := c.valid
  rw [encode_eq_iff, bytesOf] at h
  simp only [Leads, announced?_eq_some_iff]
  split_ifs at h
  · simp only [List.map_cons, List.cons.injEq, List.nil_eq, List.map_eq_nil_iff] at h
    exact .inl ⟨by omega, h.2, h.1⟩
  · rcases tail with _ | ⟨x, _ | ⟨y, tail⟩⟩ <;> simp at h
    refine .inr ⟨by omega, _, _, _, _, .inl ⟨rfl, by omega, by omega, rfl, rfl, rfl⟩, ?_⟩
    simp only [Completes, List.cons.injEq, List.nil_eq, ↓existsAndEq, and_true, true_and,
      exists_eq_left']
    omega
  · rcases tail with _ | ⟨x, _ | ⟨y, _ | ⟨z, tail⟩⟩⟩ <;> simp at h
    refine .inr ⟨by omega, _, _, _, _, .inr (.inl ⟨rfl, by omega, by omega, rfl, rfl, rfl⟩), ?_⟩
    simp only [Completes, List.cons.injEq, ↓existsAndEq, and_true, true_and, exists_eq_left']
    split_ifs <;> omega
  · rcases tail with _ | ⟨x, _ | ⟨y, _ | ⟨z, _ | ⟨w, tail⟩⟩⟩⟩ <;> simp at h
    refine .inr ⟨by omega, _, _, _, _, .inr (.inr ⟨rfl, by omega, by omega, rfl, rfl, rfl⟩), ?_⟩
    simp only [Completes, List.cons.injEq, ↓existsAndEq, and_true, true_and, exists_eq_left']
    split_ifs <;> omega

/-- A leading byte and the bytes it announces, from the code point they lead to. -/
theorem Leads.toNat_eq {b : UInt8} {tail : List UInt8} {n : Nat} (h : Leads b tail n) :
    n.isValidChar ∧ bytesOf n = b.toNat :: tail.map UInt8.toNat := by
  simp only [Leads, announced?_eq_some_iff] at h
  unfold Nat.isValidChar bytesOf
  obtain ⟨small, rfl, e⟩ | ⟨-, missing, low, high, code, ⟨rfl, h⟩ | ⟨rfl, h⟩ | ⟨rfl, h⟩, done⟩ := h
  · simp [e, small]
    omega
  · obtain ⟨x, tail, rfl, lx, hx, rfl, e⟩ := done
    rw [if_neg (by omega), if_pos (by omega)]
    simp only [List.map_cons, List.map_nil, List.cons.injEq, and_true]
    omega
  · obtain ⟨x, tail, rfl, lx, hx, y, tail, rfl, ly, hy, rfl, e⟩ := done
    have lx' : 0x80 ≤ x.toNat ∧ (b.toNat = 0xE0 → 0xA0 ≤ x.toNat) := by split_ifs at h <;> omega
    have hx' : x.toNat ≤ 0xBF ∧ (b.toNat = 0xED → x.toNat ≤ 0x9F) := by split_ifs at h <;> omega
    rw [if_neg (by omega), if_neg (by omega), if_pos (by omega)]
    simp only [List.map_cons, List.map_nil, List.cons.injEq, and_true]
    omega
  · obtain ⟨x, tail, rfl, lx, hx, y, tail, rfl, ly, hy, z, tail, rfl, lz, hz, rfl, e⟩ := done
    have lx' : 0x80 ≤ x.toNat ∧ (b.toNat = 0xF0 → 0x90 ≤ x.toNat) := by split_ifs at h <;> omega
    have hx' : x.toNat ≤ 0xBF ∧ (b.toNat = 0xF4 → x.toNat ≤ 0x8F) := by split_ifs at h <;> omega
    rw [if_neg (by omega), if_neg (by omega), if_neg (by omega)]
    simp only [List.map_cons, List.map_nil, List.cons.injEq, and_true]
    omega

/-- What bytes lead to is a character, and they are its encoding. -/
theorem Leads.encode {b : UInt8} {tail : List UInt8} {n : Nat} (h : Leads b tail n) :
    String.utf8EncodeChar (Char.ofNat n) = b :: tail := by
  obtain ⟨valid, bytes⟩ := h.toNat_eq
  have same : (Char.ofNat n).toNat = n := by
    rw [Char.ofNat, dif_pos valid]
    rfl
  rw [encode_eq_iff, same, List.map_cons, bytes]

/-! ## A text -/

theorem map_eq_ok_iff {ε α β : Type} {x : Except ε α} {f : α → β} {b : β} :
    x.map f = .ok b ↔ ∃ a, x = .ok a ∧ b = f a := by
  cases x <;> simp [Except.map, eq_comm]

/-- A character that was begun is decoded with the bytes it misses. -/
theorem decodeFrom_some_ok_iff {position first byte missing low high code : Nat} {bs : List UInt8}
    {cs : List Char} :
    decodeFrom position (some ⟨first, byte, missing + 1, low, high, code⟩) bs = .ok cs ↔
      ∃ tail rest n cs', bs = tail ++ rest ∧ Completes (missing + 1) low high code tail n ∧
        decodeFrom (position + tail.length) none rest = .ok cs' ∧ cs = Char.ofNat n :: cs' := by
  induction missing generalizing position bs low high code with
  | zero =>
    constructor
    · intro h
      match bs, h with
      | b :: bs, h =>
        rw [decodeFrom] at h
        split at h
        · next fits =>
          obtain ⟨cs', rest, e⟩ := map_eq_ok_iff.1 h
          exact ⟨[b], bs, _, cs', rfl, ⟨b, [], rfl, fits.1, fits.2, rfl, rfl⟩, rest, e⟩
        · cases h
    · rintro ⟨tail, rest, n, cs', rfl, ⟨b, tail, rfl, above, below, rfl, e⟩, h, rfl⟩
      simp only [List.cons_append, List.nil_append, decodeFrom, above, below, and_self, if_true]
      exact map_eq_ok_iff.2 ⟨cs', h, by rw [e]⟩
  | succ missing ih =>
    constructor
    · intro h
      match bs, h with
      | b :: bs, h =>
        rw [decodeFrom] at h
        split at h
        · next fits =>
          obtain ⟨tail, rest, n, cs', rfl, done, h, e⟩ := ih.1 h
          exact ⟨b :: tail, rest, n, cs', rfl, ⟨b, tail, rfl, fits.1, fits.2, done⟩,
            by simpa [Nat.add_right_comm, Nat.add_assoc] using h, e⟩
        · cases h
    · rintro ⟨tail, rest, n, cs', rfl, ⟨b, tail, rfl, above, below, done⟩, h, rfl⟩
      simp only [List.cons_append, decodeFrom, above, below, and_self, if_true]
      exact ih.2 ⟨tail, rest, n, cs', rfl, done,
        by simpa [Nat.add_right_comm, Nat.add_assoc] using h, rfl⟩

theorem announced?_missing {n missing low high code : Nat}
    (h : announced? n = some (missing, low, high, code)) : ∃ k, missing = k + 1 := by
  obtain ⟨rfl, -⟩ | ⟨rfl, -⟩ | ⟨rfl, -⟩ := announced?_eq_some_iff.1 h
  · exact ⟨0, rfl⟩
  · exact ⟨1, rfl⟩
  · exact ⟨2, rfl⟩

/-- Bytes behind a leading one are decoded as the rest of its character and the characters
behind. -/
theorem decodeFrom_cons_ok_iff {position : Nat} {b : UInt8} {bs : List UInt8} {cs : List Char} :
    decodeFrom position none (b :: bs) = .ok cs ↔
      ∃ tail rest n cs', bs = tail ++ rest ∧ Leads b tail n ∧
        decodeFrom (position + 1 + tail.length) none rest = .ok cs' ∧ cs = Char.ofNat n :: cs' := by
  rw [decodeFrom]
  split
  · next small =>
    rw [map_eq_ok_iff]
    constructor
    · rintro ⟨cs', h, e⟩
      exact ⟨[], bs, _, cs', rfl, .inl ⟨small, rfl, rfl⟩, h, e⟩
    · rintro ⟨tail, rest, n, cs', rfl, ⟨-, rfl, rfl⟩ | ⟨big, -⟩, h, e⟩
      · exact ⟨cs', h, e⟩
      · omega
  · next big =>
    split
    · next none =>
      constructor
      · intro h
        cases h
      · rintro ⟨tail, rest, n, cs', -, ⟨small, -⟩ | ⟨-, missing, low, high, code, some, -⟩, -⟩
        · exact absurd small big
        · rw [none] at some
          cases some
    · next missing low high code some =>
      obtain ⟨k, rfl⟩ := announced?_missing some
      rw [decodeFrom_some_ok_iff]
      constructor
      · rintro ⟨tail, rest, n, cs', e, done, h⟩
        exact ⟨tail, rest, n, cs', e, .inr ⟨by omega, _, _, _, _, some, done⟩, h⟩
      · rintro ⟨tail, rest, n, cs', e, ⟨small, -⟩ | ⟨-, missing, low, high, code, some', done⟩, h⟩
        · exact absurd small big
        · cases some.symm.trans some'
          exact ⟨tail, rest, n, cs', e, done, h⟩

theorem decodeFrom_ok_iff {position : Nat} {bs : List UInt8} {cs : List Char} :
    decodeFrom position none bs = .ok cs ↔ bs = cs.flatMap String.utf8EncodeChar := by
  constructor
  · intro h
    -- on the number of bytes, as one step of the decoder takes a whole character
    induction size : bs.length using Nat.strongRecOn generalizing position bs cs with
    | _ k ih =>
      match bs, h with
      | [], h =>
        cases h
        rfl
      | b :: bs, h =>
        obtain ⟨tail, rest, n, cs', rfl, lead, behind, rfl⟩ := decodeFrom_cons_ok_iff.1 h
        have shorter : rest.length < k := by
          simp only [List.length_cons, List.length_append] at size
          omega
        rw [ih _ shorter behind rfl, List.flatMap_cons, lead.encode]
        rfl
  · rintro rfl
    induction cs generalizing position with
    | nil => rfl
    | cons c cs ih =>
      rw [List.flatMap_cons]
      match e : String.utf8EncodeChar c with
      | [] => exact absurd e (String.utf8EncodeChar_ne_nil)
      | b :: tail =>
        exact decodeFrom_cons_ok_iff.2 ⟨tail, _, c.toNat, cs, rfl, Leads.of_encode e, ih,
          by rw [Char.ofNat_toNat]⟩

/-- Bytes are decoded to a text just if they are that text as it is encoded. -/
theorem decodeBytes_eq_ok_iff {bs : List UInt8} {cs : List Char} :
    decodeBytes bs = .ok cs ↔ bs = encode (String.ofList cs) := by
  rw [decodeBytes, decodeFrom_ok_iff, encode, String.toUTF8, String.toByteArray_ofList,
    List.utf8Encode, List.data_toByteArray, List.toList_toArray]

end PianoRoll.Text
