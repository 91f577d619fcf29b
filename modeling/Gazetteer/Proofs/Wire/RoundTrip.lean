import Gazetteer.Wire.Record
import Mathlib.Algebra.Group.Nat.Defs

/-!
# Reading what was written

`Reads read bytes a` says that `read` takes exactly `bytes` from the front of any input and makes
`a` of them. It is closed under the steps of a reader (`Reads.bind`, `Reads.done`), so a reader of
several fields is dealt with field by field.

`Inverts read write` says that `read` takes back whatever `write` gives. Lengths are written as
numbers of 64 bits, so this is only asked of byte strings whose own length is such a number; every
length inside of them then is one too.

* `reads_groups`: numbers in groups of seven bits.
* `inverts_text`, `Inverts.list`, `Inverts.option`: texts, lists, values that may be missing.
* `inverts_record`: the record of a directory.
-/

namespace Gazetteer.Wire

variable {α β : Type} {read : Reader α} {write : α → List UInt8} {bytes later : List UInt8}

/-- `read` takes exactly `bytes`, whatever follows, and makes `a` of them. -/
def Reads (read : Reader α) (bytes : List UInt8) (a : α) : Prop :=
  ∀ rest, read.run (bytes ++ rest) = .ok (a, rest)

/-- `read` takes back what `write` gives. -/
def Inverts (read : Reader α) (write : α → List UInt8) : Prop :=
  ∀ a, (write a).length < 2 ^ 64 → Reads read (write a) a

/-! ## Steps of a reader -/

theorem reads_pure (a : α) : Reads (pure a) [] a := fun _ => rfl

theorem Reads.bind {a : α} {b : β} {next : α → Reader β} (h : Reads read bytes a)
    (hnext : Reads (next a) later b) : Reads (read >>= next) (bytes ++ later) b := by
  intro rest
  have hfirst := h (later ++ rest)
  rw [List.append_assoc, StateT.run_bind, hfirst]
  exact hnext rest

/-- The last step of a reader takes nothing. -/
theorem Reads.done {a : α} (h : Reads read bytes a) (f : α → β) :
    Reads (read >>= fun x => pure (f x)) bytes (f a) := by
  have hread : Reads (read >>= fun x => pure (f x)) (bytes ++ []) (f a) := h.bind (reads_pure (f a))
  rwa [List.append_nil] at hread

theorem reads_byte {a : α} {next : UInt8 → Reader α} {b : UInt8} (h : Reads (next b) later a) :
    Reads (nextByte >>= next) (b :: later) a := by
  have hbyte : Reads nextByte [b] b := fun _ => rfl
  exact hbyte.bind h

theorem reads_takeBytes (bytes : List UInt8) : Reads (takeBytes bytes.length) bytes bytes := by
  intro rest
  have hle : bytes.length ≤ (bytes ++ rest).length := by simp
  show (if bytes.length ≤ (bytes ++ rest).length then _ else _) = _
  rw [if_pos hle, List.take_left, List.drop_left]

/-! ## Numbers -/

theorem toNat_ofNat_of_lt {n : Nat} (h : n < 256) : (UInt8.ofNat n).toNat = n := by
  rw [UInt8.toNat_ofNat']
  exact Nat.mod_eq_of_lt h

/-- **A number is read back.** Each group takes the bound on the number down by a factor of 128,
and the last one is at most `top`. -/
theorem reads_groups {top : Nat} (htop : top < 128) (groups : Nat) {n : Nat}
    (h : n < (top + 1) * 128 ^ groups) : Reads (readGroups top (groups + 1)) (writeNumber n) n := by
  induction groups generalizing n with
  | zero =>
    -- in the last place nothing may follow, so the whole number has to be there
    have hle : n ≤ top := by omega
    rw [writeNumber, if_pos (by omega), readGroups]
    refine reads_byte ?_
    rw [toNat_ofNat_of_lt (by omega), if_pos hle]
    exact reads_pure n
  | succ groups ih =>
    rw [writeNumber, readGroups]
    split
    · rename_i hlow
      refine reads_byte ?_
      rw [toNat_ofNat_of_lt (by omega), if_pos hlow]
      exact reads_pure n
    · have hhigh : n / 128 < (top + 1) * 128 ^ groups := by
        rw [Nat.div_lt_iff_lt_mul (by omega), Nat.mul_assoc, ← Nat.pow_succ]
        exact h
      refine reads_byte ?_
      rw [toNat_ofNat_of_lt (by omega), if_neg (by omega)]
      have hrest := (ih hhigh).done fun high => n % 128 + 128 - 128 + 128 * high
      simp only [Nat.add_sub_cancel, Nat.mod_add_div] at hrest ⊢
      exact hrest

theorem reads_bits64 {n : Nat} (h : n < 2 ^ 64) :
    Reads (readNumber .bits64) (writeNumber n) n :=
  @reads_groups 1 (by decide) 9 n (Nat.lt_of_lt_of_eq h (by decide))

theorem reads_below {w : Width} {bound : Nat} (n : Fin bound)
    (h : Reads (readNumber w) (writeNumber n.val) n.val) :
    Reads (readBelow w bound) (writeFin n) n := by
  have hread : Reads (readBelow w bound) (writeNumber n.val ++ []) n := by
    refine h.bind ?_
    rw [dif_pos n.isLt]
    exact reads_pure n
  rwa [List.append_nil] at hread

theorem inverts_short : Inverts readShort writeFin := fun n _ =>
  reads_below n (@reads_groups 3 (by decide) 2 n.val (Nat.lt_of_lt_of_eq n.isLt (by decide)))

theorem inverts_offset : Inverts readOffset writeFin := fun n _ =>
  reads_below n (@reads_groups 15 (by decide) 4 n.val (Nat.lt_of_lt_of_eq n.isLt (by decide)))

theorem length_writeNumber_pos (n : Nat) : 0 < (writeNumber n).length := by
  unfold writeNumber
  split <;> simp

/-! ## Texts, lists and values that may be missing -/

theorem fromUTF8?_toUTF8 (s : String) : String.fromUTF8? s.toUTF8 = some s := by
  have hvalid : s.toUTF8.IsValidUTF8 := s.isValidUTF8
  unfold String.fromUTF8?
  rw [dif_pos hvalid]
  rfl

/-- **A text is read back.** -/
theorem inverts_text : Inverts readText writeText := by
  intro s hs
  have hlength : s.utf8ByteSize = s.toUTF8.data.toList.length := rfl
  have hsize : s.utf8ByteSize < 2 ^ 64 := by
    rw [writeText, List.length_append, ← hlength] at hs
    omega
  -- the last step takes nothing: all bytes of the text have been taken
  rw [← List.append_nil (writeText s), writeText, List.append_assoc]
  refine (reads_bits64 hsize).bind ((reads_takeBytes s.toUTF8.data.toList).bind ?_)
  rw [Array.toArray_toList, fromUTF8?_toUTF8]
  exact reads_pure s

theorem reads_many {xs : List α} (h : ∀ x ∈ xs, Reads read (write x) x) :
    Reads (readMany read xs.length) (xs.flatMap write) xs := by
  induction xs with
  | nil => exact reads_pure []
  | cons x xs ih =>
    rw [List.flatMap_cons]
    have hrest := ih fun y hy => h y (List.mem_cons_of_mem x hy)
    exact (h x List.mem_cons_self).bind (hrest.done (x :: ·))

theorem length_le_length_flatMap (hwrite : ∀ a, 0 < (write a).length) (xs : List α) :
    xs.length ≤ (xs.flatMap write).length := by
  induction xs with
  | nil => exact Nat.zero_le _
  | cons x xs ih =>
    rw [List.flatMap_cons, List.length_append, List.length_cons]
    have := hwrite x
    omega

theorem length_write_le_length_flatMap {xs : List α} {x : α} (h : x ∈ xs) :
    (write x).length ≤ (xs.flatMap write).length := by
  obtain ⟨before, after, rfl⟩ := List.append_of_mem h
  simp only [List.flatMap_append, List.flatMap_cons, List.length_append]
  omega

/-- **A list is read back** if its items are, and none of them is written as nothing. -/
theorem Inverts.list (h : Inverts read write) (hwrite : ∀ a, 0 < (write a).length) :
    Inverts (readList read) (writeList write) := by
  intro xs hxs
  rw [writeList, List.length_append] at hxs
  have hcount := length_le_length_flatMap hwrite xs
  refine (reads_bits64 (by omega)).bind (reads_many fun x hx => h x ?_)
  have hitem : (write x).length ≤ (xs.flatMap write).length := length_write_le_length_flatMap hx
  omega

theorem Inverts.option (h : Inverts read write) :
    Inverts (readOption read) (writeOption write) := by
  intro o ho
  cases o with
  | none => exact reads_byte (reads_pure none)
  | some a =>
    rw [writeOption, List.length_cons] at ho
    exact reads_byte ((h a (by omega)).done some)

/-! ## Records -/

theorem length_writeFin_pos {bound : Nat} (n : Fin bound) : 0 < (writeFin n).length :=
  length_writeNumber_pos n.val

theorem length_writeText_pos (s : String) : 0 < (writeText s).length := by
  have := length_writeNumber_pos s.utf8ByteSize
  rw [writeText, List.length_append]
  omega

theorem DuplicateRecord.length_write_pos (d : DuplicateRecord) : 0 < d.write.length := by
  have := length_writeText_pos d.name
  simp only [write, List.length_append]
  omega

theorem inverts_duplicateRecord : Inverts DuplicateRecord.read DuplicateRecord.write := by
  rintro ⟨name, rank, start, stop⟩ h
  simp only [DuplicateRecord.write, List.length_append] at h
  simp only [DuplicateRecord.write, List.append_assoc]
  refine (inverts_text name (by omega)).bind ((inverts_short rank (by omega)).bind ?_)
  exact (inverts_offset start (by omega)).bind
    ((inverts_offset stop (by omega)).done fun stop => DuplicateRecord.mk name rank ⟨start, stop⟩)

/-- **A record is read back.** -/
theorem inverts_record : Inverts Record.read Record.write := by
  rintro ⟨version, names, ranks, starts, stops, duplicates⟩ h
  simp only [Record.write, List.length_append] at h
  simp only [Record.write, List.append_assoc]
  have hoffsets := inverts_offset.list length_writeFin_pos
  refine (inverts_short version (by omega)).bind ?_
  refine (inverts_text.list length_writeText_pos names (by omega)).bind ?_
  refine (inverts_short.list length_writeFin_pos ranks (by omega)).bind ?_
  refine (hoffsets starts (by omega)).bind ?_
  refine (hoffsets.option stops (by omega)).bind ?_
  exact (inverts_duplicateRecord.list DuplicateRecord.length_write_pos duplicates (by omega)).done
    (Record.mk version names ranks starts stops)

end Gazetteer.Wire
