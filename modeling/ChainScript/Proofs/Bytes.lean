import ChainScript.Proofs.Coverage

/-!
Characters among bytes. A character below 128 is one byte, and no other character has such a byte
anywhere. So what only ASCII characters are can be asked of single bytes.
-/

namespace ChainScript

def byteIs (p : Char → Bool) (byte : UInt8) : Bool := p (Char.ofUInt8 byte)

def OfAscii (p : Char → Bool) : Prop := ∀ c, p c = true → c.toNat < 128

theorem utf8EncodeChar_ascii (c : Char) (small : c.toNat < 128) :
    String.utf8EncodeChar c = [c.toUInt8] := by
  apply String.utf8EncodeChar_eq_singleton
  rw [Char.utf8Size_eq_one_iff, UInt32.le_iff_toNat_le]
  exact Nat.le_of_lt_succ small

theorem ofUInt8_toUInt8 (c : Char) (small : c.toNat < 128) : Char.ofUInt8 c.toUInt8 = c := by
  apply Char.ext
  rw [← UInt32.toNat_inj]
  simp only [Char.ofUInt8, Char.toUInt8, UInt8.toNat_toUInt32, UInt32.toNat_toUInt8]
  exact Nat.mod_eq_of_lt (Nat.lt_trans small (by decide))

theorem large_of_mem_utf8EncodeChar (c : Char) (large : 128 ≤ c.toNat) (byte : UInt8)
    (member : byte ∈ String.utf8EncodeChar c) : 128 ≤ byte.toNat := by
  have many : ¬ c.val.toNat ≤ 127 := Nat.not_le.mpr large
  -- Every byte is a few bits of the character over a mark that is at least 128.
  have marked (bits mark : Nat) (room : bits + mark < 256) (high : 128 ≤ mark) :
      128 ≤ (UInt8.ofNat (bits + mark)).toNat := by
    rw [UInt8.toNat_ofNat', Nat.mod_eq_of_lt room]
    omega
  simp only [String.utf8EncodeChar, if_neg many] at member
  split at member
  · simp only [List.mem_cons, List.not_mem_nil, or_false] at member
    rcases member with rfl | rfl <;> exact marked _ _ (by omega) (by omega)
  · split at member
    · simp only [List.mem_cons, List.not_mem_nil, or_false] at member
      rcases member with rfl | rfl | rfl <;> exact marked _ _ (by omega) (by omega)
    · simp only [List.mem_cons, List.not_mem_nil, or_false] at member
      rcases member with rfl | rfl | rfl | rfl <;> exact marked _ _ (by omega) (by omega)

theorem byteIs_large (p : Char → Bool) (ascii : OfAscii p) (byte : UInt8)
    (large : 128 ≤ byte.toNat) : byteIs p byte = false := by
  cases found : byteIs p byte with
  | false => rfl
  | true =>
      have small : byte.toUInt32.toNat < 128 := ascii _ found
      rw [UInt8.toNat_toUInt32] at small
      omega

theorem utf8EncodeChar_cases (p : Char → Bool) (ascii : OfAscii p) (c : Char) :
    (p c = true ∧ ∃ byte, String.utf8EncodeChar c = [byte] ∧ byteIs p byte = true) ∨
      (p c = false ∧ ∀ byte ∈ String.utf8EncodeChar c, byteIs p byte = false) := by
  by_cases small : c.toNat < 128
  · have same : byteIs p c.toUInt8 = p c := congrArg p (ofUInt8_toUInt8 c small)
    rw [utf8EncodeChar_ascii c small]
    cases has : p c with
    | true => exact .inl ⟨rfl, _, rfl, same.trans has⟩
    | false => exact .inr ⟨rfl, by simpa using same.trans has⟩
  · right
    constructor
    · cases has : p c with
      | false => rfl
      | true => exact absurd (ascii c has) small
    · intro byte member
      apply byteIs_large p ascii
      exact large_of_mem_utf8EncodeChar c (Nat.le_of_not_lt small) byte member

theorem countP_bytes (p : Char → Bool) (ascii : OfAscii p) (text : List Char) :
    (text.flatMap String.utf8EncodeChar).countP (byteIs p) = text.countP p := by
  induction text with
  | nil => rfl
  | cons c rest ih =>
      rw [List.flatMap_cons, List.countP_append, ih, List.countP_cons, Nat.add_comm]
      rcases utf8EncodeChar_cases p ascii c with ⟨has, byte, one, same⟩ | ⟨lacks, free⟩
      · simp [has, one, same]
      · have silent : (String.utf8EncodeChar c).countP (byteIs p) = 0 :=
          List.countP_eq_zero.mpr (by simpa using free)
        simp [lacks, silent]

theorem takeWhile_bytes (p : Char → Bool) (ascii : OfAscii p) (text : List Char) :
    (text.flatMap String.utf8EncodeChar).takeWhile (!byteIs p ·) =
      (text.takeWhile (!p ·)).flatMap String.utf8EncodeChar := by
  induction text with
  | nil => rfl
  | cons c rest ih =>
      rw [List.flatMap_cons]
      rcases utf8EncodeChar_cases p ascii c with ⟨has, byte, one, same⟩ | ⟨lacks, free⟩
      · simp [has, one, same]
      · rw [List.takeWhile_append_of_pos (by simpa using free), ih]
        simp [lacks]

theorem ofAscii_eq (d : Char) (small : d.toNat < 128) : OfAscii (· == d) := by
  intro c same
  rwa [eq_of_beq same]

theorem OfAscii.or {p q : Char → Bool} (left : OfAscii p) (right : OfAscii q) :
    OfAscii fun c => p c || q c := by
  intro c either
  rcases Bool.or_eq_true_iff.mp either with has | has
  · exact left c has
  · exact right c has

/-! Newlines. -/

theorem ofAscii_newline : OfAscii (· == '\n') := ofAscii_eq '\n' (by decide)

theorem byteIs_newline (byte : UInt8) : byteIs (· == '\n') byte = (byte == 0x0a) := by
  rw [Bool.eq_iff_iff, byteIs, beq_iff_eq, beq_iff_eq]
  constructor
  · intro same
    have code := congrArg (fun c : Char => c.val.toNat) same
    simp only [Char.ofUInt8, UInt8.toNat_toUInt32] at code
    exact UInt8.toNat_inj.mp code
  · rintro rfl
    rfl

theorem count_newline_bytes (text : List Char) :
    (text.flatMap String.utf8EncodeChar).count 0x0a = text.count '\n' := by
  have same := countP_bytes (· == '\n') ofAscii_newline text
  rwa [funext byteIs_newline] at same

def newlinesBefore (source : String) (offset : Nat) : Nat :=
  ((utf8Bytes source).take offset).count 0x0a

theorem utf8Bytes_take (before rest : List Char) :
    (utf8Bytes (String.ofList (before ++ rest))).take (String.ofList before).utf8ByteSize =
      before.flatMap String.utf8EncodeChar := by
  have length := length_utf8Bytes (String.ofList before)
  rw [String.ofList_append, utf8Bytes_append, ← length, List.take_left, utf8Bytes_ofList]

theorem utf8Bytes_drop (before rest : List Char) :
    (utf8Bytes (String.ofList (before ++ rest))).drop (String.ofList before).utf8ByteSize =
      rest.flatMap String.utf8EncodeChar := by
  have length := length_utf8Bytes (String.ofList before)
  rw [String.ofList_append, utf8Bytes_append, ← length, List.drop_left, utf8Bytes_ofList]

theorem newlinesBefore_size (before rest : List Char) :
    newlinesBefore (String.ofList (before ++ rest)) (String.ofList before).utf8ByteSize =
      before.count '\n' := by
  rw [newlinesBefore, utf8Bytes_take, count_newline_bytes]

end ChainScript
