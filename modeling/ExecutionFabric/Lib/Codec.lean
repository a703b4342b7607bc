import ExecutionFabric.Lib.Wire

/-!
# Bounded codecs

A reader walks a byte string from a cursor and never reads beyond `total` bytes. A
codec is a writer and a reader of one type with the proof that the reader gives back
what was written, for the values that fit. A record is written and read by one codec
of its fields, so that no field is written in one order and read in another.
-/
namespace ExecutionFabric.Lib

/-- The bytes still to be read and the number of bytes read. -/
structure Cursor where
  rest : List UInt8
  offset : Nat := 0
  deriving DecidableEq, Repr

abbrev Reader (α : Type) := Cursor → Option (α × Cursor)

variable {total : Nat} {α β : Type}

/-- The next `n` bytes, when that many are there and the limit lets the reader take them. -/
def takeBytes (total n : Nat) : Reader (List UInt8) := fun c =>
  if n ≤ c.rest.length ∧ c.offset + n ≤ total then
    some (c.rest.take n, ⟨c.rest.drop n, c.offset + n⟩)
  else none

theorem takeBytes_append {bytes : List UInt8} (rest : List UInt8) {offset : Nat}
    (h : offset + bytes.length ≤ total) :
    takeBytes total bytes.length ⟨bytes ++ rest, offset⟩ =
      some (bytes, ⟨rest, offset + bytes.length⟩) := by
  rw [takeBytes, if_pos ⟨by simp, h⟩, List.take_left, List.drop_left]

/-- Between two cursors exactly `bytes` were read. -/
structure Consumed (total : Nat) (before : Cursor) (bytes : List UInt8) (after : Cursor) : Prop where
  rest : before.rest = bytes ++ after.rest
  offset : after.offset = before.offset + bytes.length
  room : before.offset ≤ total → after.offset ≤ total

theorem Consumed.refl (c : Cursor) : Consumed total c [] c := ⟨rfl, rfl, fun h => h⟩

theorem Consumed.trans {c c' c'' : Cursor} {bytes bytes' : List UInt8}
    (h : Consumed total c bytes c') (h' : Consumed total c' bytes' c'') :
    Consumed total c (bytes ++ bytes') c'' where
  rest := by rw [h.rest, h'.rest, List.append_assoc]
  offset := by rw [h'.offset, h.offset, List.length_append, Nat.add_assoc]
  room := fun hroom => h'.room (h.room hroom)

theorem consumed_takeBytes {n : Nat} {c c' : Cursor} {bytes : List UInt8}
    (h : takeBytes total n c = some (bytes, c')) :
    bytes.length = n ∧ Consumed total c bytes c' := by
  unfold takeBytes at h
  split at h
  · rename_i hroom
    cases h
    have hlength : (c.rest.take n).length = n := by
      rw [List.length_take]
      omega
    refine ⟨hlength, (List.take_append_drop n c.rest).symm, ?_, fun _ => hroom.2⟩
    rw [hlength]
  · cases h

/-- A writer and a reader of one type, at most `total` bytes into the string. The reader gives
back what was written, and what it gives was written in the only way there is. -/
structure Codec (total : Nat) (α : Type) where
  write : α → List UInt8
  read : Reader α
  /-- The values the reader gives back. -/
  fits : α → Bool
  read_write : ∀ a rest offset, fits a = true → offset + (write a).length ≤ total →
    read ⟨write a ++ rest, offset⟩ = some (a, ⟨rest, offset + (write a).length⟩)
  read_sound : ∀ c a c', read c = some (a, c') → fits a = true ∧ Consumed total c (write a) c'

namespace Codec

/-- The words of `w` bytes. -/
def word (total w : Nat) : Codec total Nat where
  write := leBytes w
  read := fun c => (takeBytes total w c).map fun p => (leWord p.1, p.2)
  fits := fun n => decide (n < 256 ^ w)
  read_write := by
    intro n rest offset hfits hroom
    have htake := takeBytes_append rest hroom
    rw [length_leBytes] at htake ⊢
    rw [htake, Option.map_some, leWord_leBytes w n (of_decide_eq_true hfits)]
  read_sound := by
    intro c n c' h
    obtain ⟨p, hp, he⟩ := Option.map_eq_some_iff.mp h
    cases he
    obtain ⟨rfl, hread⟩ := consumed_takeBytes hp
    refine ⟨decide_eq_true (leWord_lt _), ?_⟩
    rw [leBytes_leWord]
    exact hread

/-- A type whose values are written as values of another; reading may refuse. -/
def refine (c : Codec total α) (toValue : α → Option β) (ofValue : β → α)
    (h : ∀ b, toValue (ofValue b) = some b)
    (h' : ∀ a b, c.fits a = true → toValue a = some b → ofValue b = a) : Codec total β where
  write := fun b => c.write (ofValue b)
  read := fun cur => (c.read cur).bind fun p => (toValue p.1).map fun b => (b, p.2)
  fits := fun b => c.fits (ofValue b)
  read_write := by
    intro b rest offset hfits hroom
    rw [c.read_write _ rest offset hfits hroom, Option.bind_some, h, Option.map_some]
  read_sound := by
    intro cur b cur' hread
    obtain ⟨⟨a, after⟩, ha, hb⟩ := Option.bind_eq_some_iff.mp hread
    obtain ⟨b', hb', he⟩ := Option.map_eq_some_iff.mp hb
    cases he
    obtain ⟨hfits, hconsumed⟩ := c.read_sound _ _ _ ha
    rw [h' a b hfits hb']
    exact ⟨hfits, hconsumed⟩

/-- A type whose values are written as values of another, one to one. -/
def imap (c : Codec total α) (toValue : α → β) (ofValue : β → α)
    (h : ∀ b, toValue (ofValue b) = b) (h' : ∀ a, c.fits a = true → ofValue (toValue a) = a) :
    Codec total β :=
  c.refine (fun a => some (toValue a)) ofValue (fun b => congrArg some (h b))
    (by
      intro a b hfits hb
      cases hb
      exact h' a hfits)

/-- A finite type whose values are written as their places in a list of them all. -/
def enumeration [DecidableEq α] (c : Codec total Nat) (values : List α)
    (h : ∀ a, values[values.idxOf a]? = some a) (hnodup : values.Nodup) : Codec total α :=
  c.refine (fun n => values[n]?) (fun a => values.idxOf a) h
    (by
      intro n a _ hn
      obtain ⟨hlt, rfl⟩ := List.getElem?_eq_some_iff.mp hn
      exact hnodup.idxOf_getElem n hlt)

/-- A byte string of at most `limit` bytes after its length as a word of `w` bytes. -/
def text (total w limit : Nat) : Codec total (List UInt8) where
  write := fun s => leBytes w s.length ++ s
  read := fun c => ((word total w).read c).bind fun p =>
    if p.1 > limit then none else takeBytes total p.1 p.2
  fits := fun s => (word total w).fits s.length && decide (s.length ≤ limit)
  read_write := by
    intro s rest offset hfits hroom
    obtain ⟨hword, hlimit⟩ := Bool.and_eq_true_iff.mp hfits
    have hlimit := of_decide_eq_true hlimit
    rw [List.length_append, length_leBytes] at hroom
    have hlength := (word total w).read_write s.length (s ++ rest) offset hword
      (by rw [show (word total w).write = leBytes w from rfl, length_leBytes]; omega)
    rw [show (word total w).write = leBytes w from rfl, length_leBytes] at hlength
    rw [List.append_assoc, hlength, Option.bind_some, if_neg (by omega),
      takeBytes_append rest (by omega), List.length_append, length_leBytes, Nat.add_assoc]
  read_sound := by
    intro c s c' h
    obtain ⟨⟨n, after⟩, hn, hs⟩ := Option.bind_eq_some_iff.mp h
    split at hs
    · cases hs
    · rename_i hlimit
      obtain ⟨rfl, hrest⟩ := consumed_takeBytes hs
      obtain ⟨hfits, hconsumed⟩ := (word total w).read_sound _ _ _ hn
      exact ⟨Bool.and_eq_true_iff.mpr ⟨hfits, decide_eq_true (Nat.le_of_not_lt hlimit)⟩,
        hconsumed.trans hrest⟩

/-- Reads `n` values one after the other. -/
def readMany (c : Codec total α) : Nat → Reader (List α)
  | 0, cur => some ([], cur)
  | n + 1, cur => (c.read cur).bind fun p =>
    (c.readMany n p.2).map fun q => (p.1 :: q.1, q.2)

theorem readMany_write (c : Codec total α) (as : List α) (rest : List UInt8) (offset : Nat)
    (hfits : as.all c.fits = true) (hroom : offset + (as.flatMap c.write).length ≤ total) :
    c.readMany as.length ⟨as.flatMap c.write ++ rest, offset⟩ =
      some (as, ⟨rest, offset + (as.flatMap c.write).length⟩) := by
  induction as generalizing offset with
  | nil => rfl
  | cons a as ih =>
    rw [List.all_cons, Bool.and_eq_true] at hfits
    rw [List.flatMap_cons, List.length_append] at hroom
    rw [List.length_cons, readMany, List.flatMap_cons, List.append_assoc,
      c.read_write a _ offset hfits.1 (by omega), Option.bind_some,
      ih _ hfits.2 (by omega), Option.map_some, List.length_append, Nat.add_assoc]

theorem readMany_sound (c : Codec total α) {n : Nat} {cur cur' : Cursor} {as : List α}
    (h : c.readMany n cur = some (as, cur')) :
    as.length = n ∧ as.all c.fits = true ∧ Consumed total cur (as.flatMap c.write) cur' := by
  induction n generalizing cur as with
  | zero =>
    cases h
    exact ⟨rfl, rfl, .refl _⟩
  | succ n ih =>
    obtain ⟨⟨a, after⟩, ha, has⟩ := Option.bind_eq_some_iff.mp h
    obtain ⟨⟨as', after'⟩, has', he⟩ := Option.map_eq_some_iff.mp has
    cases he
    obtain ⟨hfits, hconsumed⟩ := c.read_sound _ _ _ ha
    obtain ⟨hlength, hall, hrest⟩ := ih has'
    refine ⟨congrArg (· + 1) hlength, ?_, ?_⟩
    · rw [List.all_cons, hfits, hall, Bool.and_self]
    · rw [List.flatMap_cons]
      exact hconsumed.trans hrest

/-- At most `limit` values after their number as a word of `w` bytes. -/
def vector (w limit : Nat) (c : Codec total α) : Codec total (List α) where
  write := fun as => leBytes w as.length ++ as.flatMap c.write
  read := fun cur => ((word total w).read cur).bind fun p =>
    if p.1 > limit then none else c.readMany p.1 p.2
  fits := fun as => ((word total w).fits as.length && decide (as.length ≤ limit)) && as.all c.fits
  read_write := by
    intro as rest offset hfits hroom
    obtain ⟨hcount, hall⟩ := Bool.and_eq_true_iff.mp hfits
    obtain ⟨hword, hlimit⟩ := Bool.and_eq_true_iff.mp hcount
    have hlimit := of_decide_eq_true hlimit
    rw [List.length_append, length_leBytes] at hroom
    have hlength := (word total w).read_write as.length (as.flatMap c.write ++ rest) offset hword
      (by rw [show (word total w).write = leBytes w from rfl, length_leBytes]; omega)
    rw [show (word total w).write = leBytes w from rfl, length_leBytes] at hlength
    rw [List.append_assoc, hlength, Option.bind_some, if_neg (by omega),
      c.readMany_write as rest _ hall (by omega), List.length_append, length_leBytes,
      Nat.add_assoc]
  read_sound := by
    intro cur as cur' h
    obtain ⟨⟨n, after⟩, hn, hs⟩ := Option.bind_eq_some_iff.mp h
    split at hs
    · cases hs
    · rename_i hlimit
      obtain ⟨rfl, hall, hrest⟩ := c.readMany_sound hs
      obtain ⟨hfits, hconsumed⟩ := (word total w).read_sound _ _ _ hn
      refine ⟨Bool.and_eq_true_iff.mpr ⟨Bool.and_eq_true_iff.mpr ⟨hfits, ?_⟩, hall⟩,
        hconsumed.trans hrest⟩
      exact decide_eq_true (Nat.le_of_not_lt hlimit)

/-- One value after another. -/
def pair (c : Codec total α) (d : Codec total β) : Codec total (α × β) where
  write := fun p => c.write p.1 ++ d.write p.2
  read := fun cur => (c.read cur).bind fun p => (d.read p.2).map fun q => ((p.1, q.1), q.2)
  fits := fun p => c.fits p.1 && d.fits p.2
  read_write := by
    intro p rest offset hfits hroom
    obtain ⟨hc, hd⟩ := Bool.and_eq_true_iff.mp hfits
    rw [List.length_append] at hroom
    rw [List.append_assoc, c.read_write _ _ offset hc (by omega), Option.bind_some,
      d.read_write _ rest _ hd (by omega), Option.map_some, List.length_append, Nat.add_assoc]
  read_sound := by
    intro cur p cur' h
    obtain ⟨⟨a, after⟩, ha, hb⟩ := Option.bind_eq_some_iff.mp h
    obtain ⟨⟨b, after'⟩, hb', he⟩ := Option.map_eq_some_iff.mp hb
    cases he
    obtain ⟨hfits, hconsumed⟩ := c.read_sound _ _ _ ha
    obtain ⟨hfits', hconsumed'⟩ := d.read_sound _ _ _ hb'
    exact ⟨Bool.and_eq_true_iff.mpr ⟨hfits, hfits'⟩, hconsumed.trans hconsumed'⟩

/-- Reads one value and requires that no bytes remain. -/
def decodeAll (c : Codec total α) (bytes : List UInt8) : Option α :=
  (c.read ⟨bytes, 0⟩).bind fun p => if p.2.rest = [] then some p.1 else none

theorem decodeAll_write (c : Codec total α) {a : α} (hfits : c.fits a = true)
    (hroom : (c.write a).length ≤ total) : c.decodeAll (c.write a) = some a := by
  have h := c.read_write a [] 0 hfits (by omega)
  rw [List.append_nil] at h
  rw [decodeAll, h, Option.bind_some, if_pos rfl]

/-- A string that decodes is the only one that decodes to its value. -/
theorem write_of_decodeAll (c : Codec total α) {a : α} {bytes : List UInt8}
    (h : c.decodeAll bytes = some a) :
    c.fits a = true ∧ c.write a = bytes ∧ bytes.length ≤ total := by
  obtain ⟨⟨a', cur⟩, hread, he⟩ := Option.bind_eq_some_iff.mp h
  split at he
  · rename_i hrest
    cases he
    obtain ⟨hfits, hconsumed⟩ := c.read_sound _ _ _ hread
    have hbytes := hconsumed.rest
    have hroom := hconsumed.room (Nat.zero_le _)
    rw [show cur.rest = [] from hrest, List.append_nil] at hbytes
    rw [hconsumed.offset, ← hbytes, Nat.zero_add] at hroom
    exact ⟨hfits, hbytes.symm, hroom⟩
  · cases he

/-- Nothing that decodes can be continued to something else that decodes. -/
theorem decodeAll_append (c : Codec total α) {a : α} {bytes more : List UInt8}
    (h : c.decodeAll bytes = some a) (hmore : more ≠ []) : c.decodeAll (bytes ++ more) = none := by
  obtain ⟨hfits, rfl, hroom⟩ := c.write_of_decodeAll h
  rw [decodeAll, c.read_write a more 0 hfits (by omega), Option.bind_some, if_neg hmore]

/-- The values `within` are read back and no others, what decodes was written in the only way there
is, and no string that decodes is a proper beginning of another one that does. -/
structure Canonical (c : Codec total α) (within : α → Prop) : Prop where
  round_trip : ∀ a, within a → (c.write a).length ≤ total → c.decodeAll (c.write a) = some a
  bounded : ∀ bytes a, c.decodeAll bytes = some a → within a ∧ bytes.length ≤ total
  unique : ∀ bytes a, c.decodeAll bytes = some a → c.write a = bytes
  closed : ∀ bytes more a, c.decodeAll bytes = some a → more ≠ [] →
    c.decodeAll (bytes ++ more) = none

theorem canonical (c : Codec total α) {within : α → Prop}
    (h : ∀ a, c.fits a = true ↔ within a) : c.Canonical within where
  round_trip := fun a hwithin hroom => c.decodeAll_write ((h a).mpr hwithin) hroom
  bounded := fun _ a hdecode =>
    let ⟨hfits, _, hroom⟩ := c.write_of_decodeAll hdecode
    ⟨(h a).mp hfits, hroom⟩
  unique := fun _ _ hdecode => (c.write_of_decodeAll hdecode).2.1
  closed := fun _ _ _ hdecode hmore => c.decodeAll_append hdecode hmore

end Codec

end ExecutionFabric.Lib
