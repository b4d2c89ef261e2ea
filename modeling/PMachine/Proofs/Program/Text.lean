import Mathlib
import PMachine.Program.Lines

/-!
# Program text in UTF-8

A newline is one byte of its own in UTF-8, so cutting the bytes of a text after each newline cuts no
character in two: every line of a text in UTF-8 is in UTF-8 itself.

* `Lines.encode`: the bytes of a text.
* `Lines.decode?_encode`: a line reads as the characters that were written.
* `Lines.encoded_of_mem_split`: the lines of an encoded text are encoded lines.
-/

namespace PMachine.Lines

/-- The bytes of a text in UTF-8. -/
def encode (text : List Char) : List UInt8 := text.flatMap String.utf8EncodeChar

theorem decode?_encode (text : List Char) : decode? (encode text) = some text := by
  have hb : (⟨(encode text).toArray⟩ : ByteArray) = (String.ofList text).toByteArray := by
    rw [String.toByteArray_ofList, List.utf8Encode]
    exact ByteArray.ext (List.data_toByteArray (l := encode text)).symm
  have hv : (String.ofList text).toByteArray.IsValidUTF8 := (String.ofList text).isValidUTF8
  unfold decode? String.fromUTF8?
  rw [hb, dif_pos hv, Option.map_some]
  exact congrArg some String.toList_ofList

/-- No byte of a character other than the newline is a newline. -/
theorem ne_newline_of_mem {c : Char} (hc : c ≠ '\n') {b : UInt8} (hb : b ∈ String.utf8EncodeChar c) :
    b ≠ newline := by
  rintro rfl
  have key : ∀ n : Nat, newline = UInt8.ofNat n → n % 256 = 10 := by
    intro n h
    have := congrArg UInt8.toNat h
    rw [UInt8.toNat_ofNat'] at this
    exact this.symm
  unfold String.utf8EncodeChar at hb
  simp only at hb
  split at hb
  · have hv := key _ (List.mem_singleton.1 hb)
    apply hc
    apply Char.ext
    apply UInt32.toNat_inj.1
    have : ('\n' : Char).val.toNat = 10 := rfl
    omega
  -- a character of several bytes has only bytes from 128 on
  split at hb
  · simp only [List.mem_cons, List.not_mem_nil, or_false] at hb
    rcases hb with hb | hb <;> have := key _ hb <;> omega
  split at hb
  · simp only [List.mem_cons, List.not_mem_nil, or_false] at hb
    rcases hb with hb | hb | hb <;> have := key _ hb <;> omega
  · simp only [List.mem_cons, List.not_mem_nil, or_false] at hb
    rcases hb with hb | hb | hb | hb <;> have := key _ hb <;> omega

/-- Bytes without a newline go to the front of the first line. -/
theorem foldr_consByte {bytes : List UInt8} (hne : bytes ≠ []) (hb : ∀ b ∈ bytes, b ≠ newline)
    (lines : List (List UInt8)) :
    bytes.foldr consByte lines = (bytes ++ lines.headD []) :: lines.tail := by
  induction bytes with
  | nil => exact absurd rfl hne
  | cons b bytes ih =>
    have hbn : b ≠ newline := hb b List.mem_cons_self
    rw [List.foldr_cons]
    by_cases hnil : bytes = []
    · subst hnil
      cases lines <;> simp [consByte, hbn]
    · rw [ih hnil fun x hx => hb x (List.mem_cons_of_mem _ hx)]
      simp [consByte, hbn]

/-- A line has at least one byte. -/
theorem length_split_le (bytes : List UInt8) : (split bytes).length ≤ bytes.length := by
  induction bytes with
  | nil => rfl
  | cons b bytes ih =>
    have hcons : (consByte b (split bytes)).length ≤ (split bytes).length + 1 := by
      unfold consByte
      split
      · rfl
      · split
        · simp
        · rename_i heq
          rw [heq]
          simp
    exact hcons.trans (Nat.succ_le_succ ih)

/-- **The lines of an encoded text are encoded lines.** -/
theorem encoded_of_mem_split (text : List Char) :
    ∀ line ∈ split (encode text), ∃ cs, line = encode cs := by
  induction text with
  | nil => intro line h; simp [split, encode] at h
  | cons c text ih =>
    have hsplit : split (encode (c :: text)) =
        (String.utf8EncodeChar c).foldr consByte (split (encode text)) := by
      unfold split encode
      rw [List.flatMap_cons, List.foldr_append]
    intro line hl
    rw [hsplit] at hl
    by_cases hc : c = '\n'
    · subst hc
      have hnl : String.utf8EncodeChar '\n' = [newline] := by decide
      simp only [hnl, List.foldr_cons, List.foldr_nil, consByte, if_true] at hl
      rcases List.mem_cons.1 hl with rfl | hl
      · exact ⟨['\n'], by decide⟩
      · exact ih line hl
    · rw [foldr_consByte String.utf8EncodeChar_ne_nil (fun b hb => ne_newline_of_mem hc hb)] at hl
      rcases List.mem_cons.1 hl with rfl | hl
      · have hhead : ∃ cs, (split (encode text)).headD [] = encode cs := by
          cases hs : split (encode text) with
          | nil => exact ⟨[], rfl⟩
          | cons first rest => exact ih first (by rw [hs]; exact List.mem_cons_self)
        obtain ⟨cs, hcs⟩ := hhead
        exact ⟨c :: cs, by rw [hcs, encode, encode, List.flatMap_cons]⟩
      · exact ih line (List.mem_of_mem_tail hl)

end PMachine.Lines
