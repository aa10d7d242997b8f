import Mathlib.Data.List.Infix
import StackScript.Text.Utf8

/-!
# Characters and their bytes

* `Text.encode`: a text is its characters one by one, and is read back from their bytes;
* `Text.encodeChar_ascii`, `Text.encodeChar_other`: the bytes below `80` are the ASCII characters,
  and no other character has one of them;
* `Text.mem_encode`, `Text.infix_of_encode`: what ASCII characters are in the bytes is in the text;
* `Text.encode_cut`: a text can be cut at each of its ASCII bytes.
-/

namespace StackScript.Text

/-- The bytes of characters. -/
def encode (cs : List Char) : List UInt8 := cs.flatMap String.utf8EncodeChar

@[simp] theorem encode_nil : encode [] = [] := rfl

theorem encode_cons (c : Char) (cs : List Char) :
    encode (c :: cs) = String.utf8EncodeChar c ++ encode cs := List.flatMap_cons

@[simp] theorem encode_append (a b : List Char) : encode (a ++ b) = encode a ++ encode b :=
  List.flatMap_append

theorem bytes_eq_encode (s : String) : bytes s = encode s.toList := by
  have encoded : s.toByteArray = s.toList.utf8Encode := by
    rw [← String.toByteArray_ofList, String.ofList_toList]
  rw [bytes, String.toUTF8_eq_toByteArray, encoded, List.utf8Encode, List.data_toByteArray, encode]

@[simp] theorem bytes_append (s t : String) : bytes (s ++ t) = bytes s ++ bytes t := by
  simp [bytes_eq_encode]

theorem bytes_ofList (cs : List Char) : bytes (String.ofList cs) = encode cs := by
  rw [bytes_eq_encode, String.toList_ofList]

theorem ofBytes?_bytes (s : String) : ofBytes? (bytes s) = some s := by
  have same : (bytes s).toByteArray = s.toByteArray := by
    apply ByteArray.ext
    rw [List.data_toByteArray, bytes, String.toUTF8_eq_toByteArray, Array.toArray_toList]
  rw [ofBytes?, same, String.fromUTF8?, dif_pos s.isValidUTF8]
  rfl

theorem ofBytes?_eq_some_iff {bs : List UInt8} {s : String} :
    ofBytes? bs = some s ↔ bytes s = bs := by
  constructor
  · intro h
    rw [ofBytes?, String.fromUTF8?] at h
    split at h
    · cases h
      rw [bytes, String.toUTF8_eq_toByteArray]
      exact congrArg Array.toList (List.data_toByteArray ..)
    · cases h
  · rintro rfl
    exact ofBytes?_bytes s

theorem ofBytes?_encode (cs : List Char) : ofBytes? (encode cs) = some (String.ofList cs) := by
  rw [← bytes_ofList, ofBytes?_bytes]

/-- Characters are told by their bytes. -/
theorem bytes_eq_encode_iff {s : String} {cs : List Char} :
    bytes s = encode cs ↔ s.toList = cs := by
  constructor
  · intro h
    have decoded := ofBytes?_bytes s
    rw [h, ofBytes?_encode] at decoded
    rw [← Option.some.inj decoded, String.toList_ofList]
  · rintro rfl
    exact bytes_eq_encode s

/-! ## ASCII -/

/-- The byte of an ASCII character. -/
def asciiByte (c : Char) : UInt8 := UInt8.ofNat c.toNat

theorem asciiByte_toNat {c : Char} (h : c.toNat < 0x80) : (asciiByte c).toNat = c.toNat := by
  rw [asciiByte, UInt8.toNat_ofNat']
  omega

theorem asciiByte_ofUInt8 (b : UInt8) : asciiByte (Char.ofUInt8 b) = b := by
  have code : (Char.ofUInt8 b).toNat = b.toNat := rfl
  rw [asciiByte, code, UInt8.ofNat_toNat]

theorem encodeChar_ascii {c : Char} (h : c.toNat < 0x80) :
    String.utf8EncodeChar c = [asciiByte c] := by
  have small : c.val.toNat ≤ 127 := by
    change c.toNat ≤ 127
    omega
  rw [String.utf8EncodeChar, if_pos small]
  rfl

theorem encodeChar_other {c : Char} (h : 0x80 ≤ c.toNat) :
    ∀ b ∈ String.utf8EncodeChar c, 0x80 ≤ b.toNat := by
  have large : ¬c.val.toNat ≤ 127 := by
    change ¬c.toNat ≤ 127
    omega
  rw [String.utf8EncodeChar, if_neg large]
  split
  · simp
    omega
  · split
    · simp
      omega
    · simp
      omega

theorem encode_cons_ascii {c : Char} (h : c.toNat < 0x80) (cs : List Char) :
    encode (c :: cs) = asciiByte c :: encode cs := by
  rw [encode_cons, encodeChar_ascii h, List.singleton_append]

theorem encode_ascii {cs : List Char} (h : ∀ c ∈ cs, c.toNat < 0x80) :
    encode cs = cs.map asciiByte := by
  induction cs with
  | nil => rfl
  | cons c cs ih =>
    obtain ⟨first, others⟩ := List.forall_mem_cons.1 h
    rw [encode_cons_ascii first, ih others, List.map_cons]

theorem exists_of_ascii {bs : List UInt8} (h : ∀ b ∈ bs, b.toNat < 0x80) :
    ∃ s : String, bytes s = bs := by
  refine ⟨String.ofList (bs.map Char.ofUInt8), ?_⟩
  rw [bytes_ofList, encode_ascii (List.forall_mem_map.2 h), List.map_map]
  simp [Function.comp_def, asciiByte_ofUInt8]

/-- The byte of an ASCII character is in no other. -/
theorem mem_encodeChar {c d : Char} (h : d.toNat < 0x80) :
    asciiByte d ∈ String.utf8EncodeChar c ↔ c = d := by
  by_cases ascii : c.toNat < 0x80
  · rw [encodeChar_ascii ascii, List.mem_singleton]
    constructor
    · intro same
      have code := congrArg UInt8.toNat same
      rw [asciiByte_toNat h, asciiByte_toNat ascii] at code
      exact Char.toNat_inj.1 code.symm
    · exact fun same => same ▸ rfl
  · constructor
    · intro mem
      have := encodeChar_other (Nat.le_of_not_lt ascii) _ mem
      rw [asciiByte_toNat h] at this
      omega
    · rintro rfl
      exact absurd h ascii

theorem mem_encode {cs : List Char} {d : Char} (h : d.toNat < 0x80) :
    asciiByte d ∈ encode cs ↔ d ∈ cs := by
  simp [encode, List.mem_flatMap, mem_encodeChar h]

/-- Newlines are bytes of their own. -/
theorem count_newline (s : String) : (bytes s).count 0x0A = s.toList.count '\n' := by
  rw [bytes_eq_encode]
  induction s.toList with
  | nil => rfl
  | cons c cs ih =>
    rw [encode_cons, List.count_append, ih, List.count_cons, Nat.add_comm]
    congr 1
    by_cases newline : c = '\n'
    · subst newline
      rfl
    · have absent : (0x0A : UInt8) ∉ String.utf8EncodeChar c :=
        mt (mem_encodeChar (d := '\n') (by decide)).1 newline
      simp [List.count_eq_zero.2 absent, newline]

theorem encodeChar_ne_nil (c : Char) : String.utf8EncodeChar c ≠ [] := by
  rw [← List.length_pos_iff, String.length_utf8EncodeChar]
  exact c.utf8Size_pos

theorem head?_of_encode {cs : List Char} {d : Char} (h : d.toNat < 0x80)
    (first : (encode cs).head? = some (asciiByte d)) : cs.head? = some d := by
  cases cs with
  | nil => cases first
  | cons c cs =>
    obtain ⟨b, bs, encoded⟩ := List.exists_cons_of_ne_nil (encodeChar_ne_nil c)
    rw [encode_cons, encoded] at first
    have mem : asciiByte d ∈ String.utf8EncodeChar c := by
      rw [encoded, Option.some.inj first.symm]
      exact .head _
    rw [List.head?_cons, (mem_encodeChar h).1 mem]

/-- Two bytes that are neighbours are so behind others among which the first of them is not. -/
theorem infix_of_append {u v : UInt8} {front rest : List UInt8} (absent : u ∉ front)
    (h : [u, v] <:+: front ++ rest) : [u, v] <:+: rest := by
  induction front with
  | nil => exact h
  | cons b front ih =>
    obtain first | later := List.infix_cons_iff.1 h
    · rw [List.cons_prefix_cons] at first
      exact absurd first.1 (List.ne_of_not_mem_cons absent)
    · exact ih (List.not_mem_of_not_mem_cons absent) later

/-- Two ASCII characters are neighbours where their bytes are. -/
theorem infix_of_encode {c d : Char} (hc : c.toNat < 0x80) (hd : d.toNat < 0x80) {cs : List Char}
    (h : [asciiByte c, asciiByte d] <:+: encode cs) : [c, d] <:+: cs := by
  induction cs with
  | nil => simp at h
  | cons x cs ih =>
    rw [encode_cons] at h
    by_cases same : x = c
    · subst same
      rw [encodeChar_ascii hc, List.singleton_append] at h
      obtain first | later := List.infix_cons_iff.1 h
      · rw [List.cons_prefix_cons] at first
        have next : (encode cs).head? = some (asciiByte d) := by
          obtain ⟨rest, eq⟩ := first.2
          rw [← eq]
          rfl
        obtain ⟨rest, rfl⟩ := List.head?_eq_some_iff.1 (head?_of_encode hd next)
        exact ⟨[], rest, rfl⟩
      · exact (ih later).trans (List.suffix_cons x cs).isInfix
    · have later := infix_of_append (mt (mem_encodeChar hc).1 same) h
      exact (ih later).trans (List.suffix_cons x cs).isInfix

/-! ## Cutting a text -/

/-- An ASCII byte is a character of its own, so a text can be cut in front of it and behind it. -/
theorem encode_cut {cs : List Char} {front rest : List UInt8} {b : UInt8} (ascii : b.toNat < 0x80)
    (h : encode cs = front ++ b :: rest) :
    ∃ before c behind, cs = before ++ c :: behind ∧ encode before = front ∧
      String.utf8EncodeChar c = [b] ∧ encode behind = rest := by
  induction cs generalizing front with
  | nil => simp at h
  | cons c cs ih =>
    rw [encode_cons] at h
    by_cases small : c.toNat < 0x80
    · rw [encodeChar_ascii small, List.singleton_append] at h
      cases front with
      | nil =>
        obtain ⟨rfl, rest⟩ := List.cons.inj h
        exact ⟨[], c, cs, rfl, rfl, encodeChar_ascii small, rest⟩
      | cons b' front =>
        obtain ⟨rfl, later⟩ := List.cons.inj h
        obtain ⟨before, d, behind, rfl, rfl, one, rest⟩ := ih later
        exact ⟨c :: before, d, behind, rfl, encode_cons_ascii small before, one, rest⟩
    · have large := encodeChar_other (Nat.le_of_not_lt small)
      obtain ⟨front, rfl, later⟩ | ⟨inside, encoded, later⟩ := List.append_eq_append_iff.1 h
      · obtain ⟨before, d, behind, rfl, rfl, one, rest⟩ := ih later
        exact ⟨c :: before, d, behind, rfl, encode_cons c before, one, rest⟩
      · cases inside with
        | nil =>
          obtain ⟨before, d, behind, rfl, nothing, one, rest⟩ := @ih [] (by simpa using later.symm)
          refine ⟨c :: before, d, behind, rfl, ?_, one, rest⟩
          rw [encode_cons, nothing, encoded]
          simp
        | cons b' inside =>
          obtain ⟨rfl, _⟩ := List.cons.inj later
          have := large b (by simp [encoded])
          omega

end StackScript.Text
