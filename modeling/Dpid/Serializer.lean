import Dpid.Bytes
import Mathlib.Data.List.Basic
/-!
# Serializer — `serialize` and `deserialize` (`dpss/core/serializer.py`)

A value is a list, a tuple, a byte string, an element of one of four classes of the curve library, or any other one,
which is pickled.  Lists and tuples stand between a start and an end tag; a byte string and a pickled value stand after
their length, an element after its tag alone, since its state has a fixed size.

The library and pickle are parameters (`SerialLib`, `loads`), and `SerialLib.Lawful` is what the code relies on.  What
`deserialize_item` returns carries that it stands after the position it was read at, so that reading ends.
-/
namespace Dpid

/-- The classes of `pypairing` in the lookup table. -/
inductive ElemClass where
  | g1
  | zr
  | curve25519G
  | curve25519ZR
deriving DecidableEq

/-- The elements and their states, and the other values and their pickles. -/
structure SerialLib where
  Elem : ElemClass → Type
  Other : Type
  getstate : ∀ c, Elem c → Bytes
  setstate : ∀ c, Bytes → Except Exn (Elem c)
  dumps : Other → Bytes

inductive PyObj (L : SerialLib) where
  | list (l : List (PyObj L))
  | tuple (l : List (PyObj L))
  | bytes (b : Bytes)
  | elem (c : ElemClass) (x : L.Elem c)
  | misc (x : L.Other)

/-- The first entries of the lookup table. -/
inductive SerialTag where
  | listStart
  | listEnd
  | tupleStart
  | tupleEnd
  | elem (c : ElemClass)
  | bytes
  | misc
deriving DecidableEq

namespace Serializer

def genLookup : List (UInt8 × SerialTag) :=
  [(0x01, .listStart), (0x02, .listEnd), (0x03, .tupleStart), (0x04, .tupleEnd), (0x05, .elem .g1), (0x06, .elem .zr),
    (0x07, .elem .curve25519G), (0x08, .elem .curve25519ZR), (0x09, .bytes), (0x99, .misc)]

/-- The second entry of a class. -/
def elemSize : ElemClass → Nat
  | .g1           => 48
  | .zr           => 32
  | .curve25519G  => 32
  | .curve25519ZR => 32

def genReverseLookup : List (SerialTag × UInt8) := genLookup.map Prod.swap

/-- `gen_reverse_lookup()[tag]`; every tag is there. -/
def tagByte (tag : SerialTag) : UInt8 := (genReverseLookup.lookup tag).getD 0

/-! ## Lengths -/

/-- The loop of `len_to_bytes`. -/
def lenLoop (output : Bytes) (length : Nat) : Bytes :=
  if 255 ≤ length then lenLoop (output ++ [255]) (length - 255) else output ++ [UInt8.ofNat length]
termination_by length
decreasing_by omega

def lenToBytes (length : Nat) : Bytes := if length < 255 then [UInt8.ofNat length] else lenLoop [] length

/-- The loop of `bytes_to_len`: the length and the position after it. -/
def lenFrom (bytestr : Bytes) (seek length : Nat) : Except Exn (Nat × Nat) :=
  match h : bytestr[seek]? with
  | none   => .error .indexError
  | some b =>
    have _hlt : seek < bytestr.length := (List.getElem?_eq_some_iff.1 h).1
    if b = 255 then lenFrom bytestr (seek + 1) (length + 255) else .ok (length + b.toNat, seek + 1)
termination_by bytestr.length - seek

def bytesToLen (bytestr : Bytes) (seek : Nat) : Except Exn (Nat × Nat) := lenFrom bytestr seek 0

theorem seek_lt_of_lenFrom (bytestr : Bytes) (seek length : Nat) {r : Nat × Nat} (h : lenFrom bytestr seek length = .ok r) :
    seek < r.2 := by
  rw [lenFrom] at h
  split at h
  · cases h
  · split at h
    · exact Nat.lt_trans (Nat.lt_succ_self _) (seek_lt_of_lenFrom bytestr (seek + 1) (length + 255) h)
    · cases h
      exact Nat.lt_succ_self _
termination_by bytestr.length - seek
decreasing_by
  rename_i hb _ _
  have := (List.getElem?_eq_some_iff.1 hb).1
  omega

/-! ## `serialize` -/

section

variable {L : SerialLib}

mutual

/-- `serialize_item`; `serialize_iter` of a list or a tuple. -/
def serializeItem : PyObj L → Bytes
  | .list l   => tagByte .listStart :: serializeEntries l ++ [tagByte .listEnd]
  | .tuple l  => tagByte .tupleStart :: serializeEntries l ++ [tagByte .tupleEnd]
  | .bytes b  => tagByte .bytes :: lenToBytes b.length ++ b
  | .elem c x => tagByte (.elem c) :: L.getstate c x
  | .misc x   => 0x99 :: lenToBytes (L.dumps x).length ++ L.dumps x

/-- The loop of `serialize_iter`. -/
def serializeEntries : List (PyObj L) → Bytes
  | []         => []
  | entry :: l => serializeItem entry ++ serializeEntries l

end

def serialize (item : PyObj L) : Bytes := serializeItem item

/-! ## `deserialize` -/

/-- `lookup[bytestr[seek:seek + 1]][0]`. -/
def tagAt (bytestr : Bytes) (seek : Nat) : Except Exn SerialTag :=
  match bytestr[seek]? with
  | none   => .error .keyError
  | some b =>
    match genLookup.lookup b with
    | none     => .error .keyError
    | some tag => .ok tag

theorem seek_lt_of_tagAt {bytestr : Bytes} {seek : Nat} {tag : SerialTag} (h : tagAt bytestr seek = .ok tag) :
    seek < bytestr.length := by
  unfold tagAt at h
  split at h
  · cases h
  · rename_i hb
    exact (List.getElem?_eq_some_iff.1 hb).1

inductive IterType where
  | list
  | tuple

def IterType.build : IterType → List (PyObj L) → PyObj L
  | .list  => .list
  | .tuple => .tuple

/-- A value read at `seek` and the position after it. -/
abbrev Parsed (L : SerialLib) (seek : Nat) := { r : Nat × PyObj L // seek < r.1 }

variable (loads : Bytes → Except Exn (PyObj L))

mutual

def deserializeItem (bytestr : Bytes) (seek : Nat) : Except Exn (Parsed L seek) :=
  match h : tagAt bytestr seek with
  | .error e => .error e
  | .ok tag  =>
    have _hlt := seek_lt_of_tagAt h
    match tag with
    | .listStart  => do
      let ⟨r, hr⟩ ← deserializeIter bytestr (seek + 1) .list []
      return ⟨r, Nat.lt_of_succ_lt hr⟩
    | .tupleStart => do
      let ⟨r, hr⟩ ← deserializeIter bytestr (seek + 1) .tuple []
      return ⟨r, Nat.lt_of_succ_lt hr⟩
    | .bytes      =>
      match hlen : bytesToLen bytestr (seek + 1) with
      | .error e         => .error e
      | .ok (size, seek') =>
        .ok ⟨(seek' + size, .bytes (slice bytestr seek' (seek' + size))), by
          have := seek_lt_of_lenFrom _ _ _ hlen
          show seek < seek' + size
          omega⟩
    | .misc       =>
      match hlen : bytesToLen bytestr (seek + 1) with
      | .error e         => .error e
      | .ok (size, seek') => do
        let object ← loads (slice bytestr seek' (seek' + size))
        return ⟨(seek' + size, object), by
          have := seek_lt_of_lenFrom _ _ _ hlen
          show seek < seek' + size
          omega⟩
    | .elem c     => do
      let x ← L.setstate c (slice bytestr (seek + 1) (seek + 1 + elemSize c))
      return ⟨(seek + 1 + elemSize c, .elem c x), by
        show seek < seek + 1 + elemSize c
        omega⟩
    -- the name of an end tag is no class to call
    | .listEnd | .tupleEnd => .error .typeError
termination_by (bytestr.length - seek, 0)
decreasing_by all_goals rw [Prod.lex_def]; omega

/-- The loop of `deserialize_iter`. -/
def deserializeIter (bytestr : Bytes) (seek : Nat) (iterType : IterType) (output : List (PyObj L)) :
    Except Exn (Parsed L seek) :=
  match h : tagAt bytestr seek with
  | .error e => .error e
  | .ok tag  =>
    have _hlt := seek_lt_of_tagAt h
    match tag with
    | .listEnd | .tupleEnd => .ok ⟨(seek + 1, iterType.build output), Nat.lt_succ_self seek⟩
    | .listStart           => do
      let ⟨(seek', object), h₁⟩ ← deserializeIter bytestr (seek + 1) .list []
      have hseek : seek < seek' := Nat.lt_of_succ_lt h₁
      let ⟨r, h₂⟩ ← deserializeIter bytestr seek' iterType (output ++ [object])
      return ⟨r, Nat.lt_trans hseek h₂⟩
    | .tupleStart          => do
      let ⟨(seek', object), h₁⟩ ← deserializeIter bytestr (seek + 1) .tuple []
      have hseek : seek < seek' := Nat.lt_of_succ_lt h₁
      let ⟨r, h₂⟩ ← deserializeIter bytestr seek' iterType (output ++ [object])
      return ⟨r, Nat.lt_trans hseek h₂⟩
    | _                    => do
      let ⟨(seek', object), h₁⟩ ← deserializeItem bytestr seek
      have hseek : seek < seek' := h₁
      let ⟨r, h₂⟩ ← deserializeIter bytestr seek' iterType (output ++ [object])
      return ⟨r, Nat.lt_trans hseek h₂⟩
termination_by (bytestr.length - seek, 1)
decreasing_by all_goals rw [Prod.lex_def]; omega

end

def deserialize (bytestr : Bytes) : Except Exn (PyObj L) := do
  let r ← deserializeItem loads bytestr 0
  return r.1.2

end

/-- **What the code relies on**: `__setstate__` and `loads` read back what `__getstate__` and `dumps` gave, and a state
has the size in the table. -/
structure Lawful (L : SerialLib) (loads : Bytes → Except Exn (PyObj L)) : Prop where
  setstate_getstate : ∀ c x, L.setstate c (L.getstate c x) = .ok x
  length_getstate : ∀ c x, (L.getstate c x).length = elemSize c
  loads_dumps : ∀ x, loads (L.dumps x) = .ok (.misc x)

/-! ## Lengths read back -/

theorem lenLoop_eq (output : Bytes) (n : Nat) :
    lenLoop output n = output ++ (List.replicate (n / 255) 255 ++ [UInt8.ofNat (n % 255)]) := by
  rw [lenLoop]
  by_cases h : 255 ≤ n
  · have hdiv : n / 255 = (n - 255) / 255 + 1 := by omega
    have hmod : n % 255 = (n - 255) % 255 := by omega
    rw [if_pos h, lenLoop_eq (output ++ [255]) (n - 255), hdiv, hmod, List.replicate_succ, List.append_assoc]
    rfl
  · rw [if_neg h, Nat.div_eq_of_lt (by omega), Nat.mod_eq_of_lt (by omega)]
    rfl
termination_by n
decreasing_by omega

/-- **The code of a length**: a byte `255` for each multiple of 255, and the remainder. -/
theorem lenToBytes_eq (n : Nat) : lenToBytes n = List.replicate (n / 255) 255 ++ [UInt8.ofNat (n % 255)] := by
  unfold lenToBytes
  by_cases h : n < 255
  · rw [if_pos h, Nat.div_eq_of_lt h, Nat.mod_eq_of_lt h]
    rfl
  · rw [if_neg h, lenLoop_eq]
    rfl

theorem lenFrom_255 {bytestr : Bytes} {seek : Nat} (h : bytestr[seek]? = some 255) (n : Nat) :
    lenFrom bytestr seek n = lenFrom bytestr (seek + 1) (n + 255) := by
  rw [lenFrom]
  split
  · rename_i h'
    rw [h] at h'
    cases h'
  · rename_i b h'
    rw [h] at h'
    cases h'
    rw [if_pos rfl]

theorem lenFrom_last {bytestr : Bytes} {seek : Nat} {b : UInt8} (h : bytestr[seek]? = some b) (hb : b ≠ 255) (n : Nat) :
    lenFrom bytestr seek n = .ok (n + b.toNat, seek + 1) := by
  rw [lenFrom]
  split
  · rename_i h'
    rw [h] at h'
    cases h'
  · rename_i b' h'
    rw [h] at h'
    cases h'
    rw [if_neg hb]

theorem getElem?_append_cons (pre : Bytes) (b : UInt8) (rest : Bytes) : (pre ++ b :: rest)[pre.length]? = some b := by
  rw [List.getElem?_append_right (Nat.le_refl _), Nat.sub_self]
  rfl

theorem lenFrom_replicate (b : UInt8) (hb : b ≠ 255) : ∀ (k : Nat) (pre rest : Bytes) (n : Nat),
    lenFrom (pre ++ (List.replicate k 255 ++ b :: rest)) pre.length n =
      .ok (n + 255 * k + b.toNat, pre.length + k + 1)
  | 0, pre, rest, n     => by
    rw [List.replicate_zero, List.nil_append, lenFrom_last (getElem?_append_cons pre b rest) hb]
    simp
  | k + 1, pre, rest, n => by
    have ih := lenFrom_replicate b hb k (pre ++ [255]) rest (n + 255)
    rw [List.append_assoc, List.length_append, List.length_singleton] at ih
    rw [List.replicate_succ, List.cons_append, lenFrom_255 (getElem?_append_cons pre 255 _)]
    simp only [List.singleton_append] at ih
    rw [ih]
    simp only [Except.ok.injEq, Prod.mk.injEq]
    omega

/-- **A length is read back, whatever follows it.** -/
theorem bytesToLen_lenToBytes (n : Nat) (pre rest : Bytes) :
    bytesToLen (pre ++ (lenToBytes n ++ rest)) pre.length = .ok (n, pre.length + (lenToBytes n).length) := by
  have hlt : n % 255 < 255 := Nat.mod_lt n (by decide)
  have hnat : (UInt8.ofNat (n % 255)).toNat = n % 255 := UInt8.toNat_ofNat_of_lt' (Nat.lt_succ_of_lt hlt)
  have hne : UInt8.ofNat (n % 255) ≠ 255 := by
    intro h
    rw [h] at hnat
    exact absurd hnat.symm (Nat.ne_of_lt hlt)
  rw [lenToBytes_eq, List.append_assoc, List.singleton_append, bytesToLen, lenFrom_replicate _ hne, hnat, Nat.zero_add,
    List.length_append, List.length_replicate, Nat.div_add_mod]
  rfl

theorem slice_append (pre m rest : Bytes) : slice (pre ++ (m ++ rest)) pre.length (pre.length + m.length) = m := by
  rw [slice, List.drop_left, Nat.add_sub_cancel_left, List.take_left]

/-! ## One value and the entries of a container -/

section Steps

variable {L : SerialLib} (loads : Bytes → Except Exn (PyObj L))

/-- `deserialize_item`, without the proof that it goes on. -/
def itemAt (bytestr : Bytes) (seek : Nat) : Except Exn (Nat × PyObj L) :=
  (deserializeItem loads bytestr seek).map Subtype.val

def iterAt (bytestr : Bytes) (seek : Nat) (iterType : IterType) (output : List (PyObj L)) : Except Exn (Nat × PyObj L) :=
  (deserializeIter loads bytestr seek iterType output).map Subtype.val

variable {loads} {bytestr : Bytes} {seek : Nat}

/-- A container is its entries, up to an end tag. -/
theorem itemAt_iter {tag : SerialTag} {iterType : IterType} (h : tagAt bytestr seek = .ok tag)
    (htag : tag = .listStart ∧ iterType = .list ∨ tag = .tupleStart ∧ iterType = .tuple) :
    itemAt loads bytestr seek = iterAt loads bytestr (seek + 1) iterType [] := by
  unfold itemAt iterAt
  rw [deserializeItem]
  split
  · rename_i h'
    rw [h] at h'
    cases h'
  · rename_i tag' h'
    rw [h] at h'
    cases h'
    rcases htag with ⟨rfl, rfl⟩ | ⟨rfl, rfl⟩
    · cases deserializeIter loads bytestr (seek + 1) .list [] <;> rfl
    · cases deserializeIter loads bytestr (seek + 1) .tuple [] <;> rfl

theorem itemAt_bytes (h : tagAt bytestr seek = .ok .bytes) {size seek' : Nat}
    (hlen : bytesToLen bytestr (seek + 1) = .ok (size, seek')) :
    itemAt loads bytestr seek = .ok (seek' + size, .bytes (slice bytestr seek' (seek' + size))) := by
  unfold itemAt
  rw [deserializeItem]
  split
  · rename_i h'
    rw [h] at h'
    cases h'
  · rename_i tag' h'
    rw [h] at h'
    cases h'
    dsimp only
    split
    · rename_i hlen'
      rw [hlen] at hlen'
      cases hlen'
    · rename_i hlen'
      rw [hlen] at hlen'
      cases hlen'
      rfl

theorem itemAt_misc (h : tagAt bytestr seek = .ok .misc) {size seek' : Nat}
    (hlen : bytesToLen bytestr (seek + 1) = .ok (size, seek')) {object : PyObj L}
    (hloads : loads (slice bytestr seek' (seek' + size)) = .ok object) :
    itemAt loads bytestr seek = .ok (seek' + size, object) := by
  unfold itemAt
  rw [deserializeItem]
  split
  · rename_i h'
    rw [h] at h'
    cases h'
  · rename_i tag' h'
    rw [h] at h'
    cases h'
    dsimp only
    split
    · rename_i hlen'
      rw [hlen] at hlen'
      cases hlen'
    · rename_i hlen'
      rw [hlen] at hlen'
      cases hlen'
      rw [hloads]
      rfl

theorem itemAt_elem {c : ElemClass} (h : tagAt bytestr seek = .ok (.elem c)) {x : L.Elem c}
    (hset : L.setstate c (slice bytestr (seek + 1) (seek + 1 + elemSize c)) = .ok x) :
    itemAt loads bytestr seek = .ok (seek + 1 + elemSize c, .elem c x) := by
  unfold itemAt
  rw [deserializeItem]
  split
  · rename_i h'
    rw [h] at h'
    cases h'
  · rename_i tag' h'
    rw [h] at h'
    cases h'
    dsimp only
    rw [hset]
    rfl

theorem iterAt_end {tag : SerialTag} (h : tagAt bytestr seek = .ok tag) (htag : tag = .listEnd ∨ tag = .tupleEnd)
    (iterType : IterType) (output : List (PyObj L)) :
    iterAt loads bytestr seek iterType output = .ok (seek + 1, iterType.build output) := by
  unfold iterAt
  rw [deserializeIter]
  split
  · rename_i h'
    rw [h] at h'
    cases h'
  · rename_i tag' h'
    rw [h] at h'
    cases h'
    rcases htag with rfl | rfl <;> rfl

theorem val_of_map_ok {ε : Type} {p : Nat × PyObj L → Prop} {e : Except ε { r // p r }} {r : Nat × PyObj L}
    (h : e.map Subtype.val = .ok r) : ∃ hr, e = .ok ⟨r, hr⟩ := by
  cases e with
  | error x => cases h
  | ok y    =>
    cases h
    exact ⟨y.2, rfl⟩

theorem map_val_bind {p q : Nat × PyObj L → Prop} (e : Except Exn { r // p r }) (hpq : ∀ r, p r → q r) :
    (do let x ← e; return (⟨x.1, hpq _ x.2⟩ : { r // q r }) : Except Exn { r // q r }).map Subtype.val = e.map Subtype.val := by
  cases e <;> rfl

theorem iterAt_entry {tag : SerialTag} (h : tagAt bytestr seek = .ok tag) (hlist : tag ≠ .listEnd) (htuple : tag ≠ .tupleEnd)
    {seek' : Nat} {object : PyObj L} (hitem : itemAt loads bytestr seek = .ok (seek', object)) (iterType : IterType)
    (output : List (PyObj L)) :
    iterAt loads bytestr seek iterType output = iterAt loads bytestr seek' iterType (output ++ [object]) := by
  obtain ⟨hr, hread⟩ := val_of_map_ok hitem
  have hlt : ∀ r : Nat × PyObj L, seek' < r.1 → seek < r.1 := fun r => Nat.lt_trans hr
  unfold iterAt
  rw [deserializeIter]
  split
  · rename_i h'
    rw [h] at h'
    cases h'
  · rename_i tag' h'
    rw [h] at h'
    cases h'
    have hrest := map_val_bind (deserializeIter loads bytestr seek' iterType (output ++ [object])) hlt
    cases tag with
    | listEnd    => exact absurd rfl hlist
    | tupleEnd   => exact absurd rfl htuple
    | listStart  =>
      rw [itemAt_iter h (Or.inl ⟨rfl, rfl⟩)] at hitem
      obtain ⟨hr', hiter⟩ := val_of_map_ok hitem
      dsimp only
      rw [hiter]
      exact hrest
    | tupleStart =>
      rw [itemAt_iter h (Or.inr ⟨rfl, rfl⟩)] at hitem
      obtain ⟨hr', hiter⟩ := val_of_map_ok hitem
      dsimp only
      rw [hiter]
      exact hrest
    | bytes      =>
      dsimp only
      rw [hread]
      exact hrest
    | misc       =>
      dsimp only
      rw [hread]
      exact hrest
    | elem c     =>
      dsimp only
      rw [hread]
      exact hrest

end Steps

/-! ## The round trip -/

section RoundTrip

variable {L : SerialLib} {loads : Bytes → Except Exn (PyObj L)}

/-- The entry of the table `serialize_item` writes the value under. -/
def tagOf : PyObj L → SerialTag
  | .list _   => .listStart
  | .tuple _  => .tupleStart
  | .bytes _  => .bytes
  | .elem c _ => .elem c
  | .misc _   => .misc

theorem tagOf_ne_listEnd (x : PyObj L) : tagOf x ≠ .listEnd := by cases x <;> simp [tagOf]

theorem tagOf_ne_tupleEnd (x : PyObj L) : tagOf x ≠ .tupleEnd := by cases x <;> simp [tagOf]

/-- `gen_reverse_lookup` inverts `gen_lookup`. -/
theorem lookup_tagByte (tag : SerialTag) : genLookup.lookup (tagByte tag) = some tag := by
  cases tag with
  | elem c => cases c <;> rfl
  | _      => rfl

theorem tagAt_tagByte (tag : SerialTag) (pre rest : Bytes) : tagAt (pre ++ tagByte tag :: rest) pre.length = .ok tag := by
  rw [tagAt, getElem?_append_cons]
  dsimp only
  rw [lookup_tagByte]

theorem serializeItem_eq_cons (x : PyObj L) : ∃ payload, serializeItem x = tagByte (tagOf x) :: payload := by
  cases x <;> exact ⟨_, by rw [serializeItem]; rfl⟩

theorem tagAt_serializeItem (x : PyObj L) (pre rest : Bytes) :
    tagAt (pre ++ (serializeItem x ++ rest)) pre.length = .ok (tagOf x) := by
  obtain ⟨payload, hx⟩ := serializeItem_eq_cons x
  rw [hx]
  exact tagAt_tagByte _ pre (payload ++ rest)

theorem bytesToLen_frame (t : UInt8) (m pre rest : Bytes) :
    bytesToLen (pre ++ (t :: lenToBytes m.length ++ m ++ rest)) (pre.length + 1) =
      .ok (m.length, pre.length + 1 + (lenToBytes m.length).length) := by
  have h := bytesToLen_lenToBytes m.length (pre ++ [t]) (m ++ rest)
  simpa using h

theorem slice_frame (t : UInt8) (m pre rest : Bytes) :
    slice (pre ++ (t :: lenToBytes m.length ++ m ++ rest)) (pre.length + 1 + (lenToBytes m.length).length)
      (pre.length + 1 + (lenToBytes m.length).length + m.length) = m := by
  have h := slice_append (pre ++ t :: lenToBytes m.length) m rest
  simpa [Nat.add_assoc, Nat.add_comm 1] using h

mutual

theorem itemAt_serializeItem (hL : Lawful L loads) : ∀ (x : PyObj L) (pre rest : Bytes),
    itemAt loads (pre ++ (serializeItem x ++ rest)) pre.length = .ok (pre.length + (serializeItem x).length, x)
  | .list l, pre, rest   => by
    have htag := tagAt_serializeItem (.list l) pre rest
    have ih := iterAt_serializeEntries hL l (pre ++ [tagByte .listStart]) rest (Or.inl rfl) .list []
    rw [itemAt_iter htag (Or.inl ⟨rfl, rfl⟩), serializeItem]
    simpa [Nat.add_assoc, Nat.add_comm 1, IterType.build] using ih
  | .tuple l, pre, rest  => by
    have htag := tagAt_serializeItem (.tuple l) pre rest
    have ih := iterAt_serializeEntries hL l (pre ++ [tagByte .tupleStart]) rest (Or.inr rfl) .tuple []
    rw [itemAt_iter htag (Or.inr ⟨rfl, rfl⟩), serializeItem]
    simpa [Nat.add_assoc, Nat.add_comm 1, IterType.build] using ih
  | .bytes b, pre, rest  => by
    have htag := tagAt_serializeItem (.bytes b : PyObj L) pre rest
    rw [serializeItem] at htag ⊢
    rw [itemAt_bytes htag (bytesToLen_frame _ b pre rest), slice_frame]
    simp [Nat.add_assoc, Nat.add_comm 1]
  | .elem c x, pre, rest => by
    have htag := tagAt_serializeItem (.elem c x) pre rest
    have hslice := slice_append (pre ++ [tagByte (.elem c)]) (L.getstate c x) rest
    rw [serializeItem] at htag ⊢
    rw [hL.length_getstate] at hslice
    simp only [List.append_assoc, List.cons_append, List.nil_append, List.length_append, List.length_cons, List.length_nil,
      Nat.zero_add] at hslice htag ⊢
    rw [itemAt_elem htag (x := x) (by rw [hslice, hL.setstate_getstate]), hL.length_getstate, Nat.add_assoc, Nat.add_comm 1]
  | .misc x, pre, rest   => by
    have htag := tagAt_serializeItem (.misc x : PyObj L) pre rest
    have hloads : loads (slice (pre ++ (0x99 :: lenToBytes (L.dumps x).length ++ L.dumps x ++ rest))
        (pre.length + 1 + (lenToBytes (L.dumps x).length).length)
        (pre.length + 1 + (lenToBytes (L.dumps x).length).length + (L.dumps x).length)) = .ok (.misc x) := by
      rw [slice_frame, hL.loads_dumps]
    rw [serializeItem] at htag ⊢
    rw [itemAt_misc htag (bytesToLen_frame _ (L.dumps x) pre rest) hloads]
    simp [Nat.add_assoc, Nat.add_comm 1]

theorem iterAt_serializeEntries (hL : Lawful L loads) : ∀ (l : List (PyObj L)) (pre rest : Bytes) {tag : SerialTag}
    (_ : tag = .listEnd ∨ tag = .tupleEnd) (iterType : IterType) (output : List (PyObj L)),
    iterAt loads (pre ++ (serializeEntries l ++ tagByte tag :: rest)) pre.length iterType output =
      .ok (pre.length + (serializeEntries l).length + 1, iterType.build (output ++ l))
  | [], pre, rest, tag, htag, iterType, output         => by
    rw [serializeEntries, List.nil_append, iterAt_end (tagAt_tagByte tag pre rest) htag, List.append_nil]
    rfl
  | entry :: l, pre, rest, tag, htag, iterType, output => by
    have hitem := itemAt_serializeItem hL entry pre (serializeEntries l ++ tagByte tag :: rest)
    have ih := iterAt_serializeEntries hL l (pre ++ serializeItem entry) rest htag iterType (output ++ [entry])
    rw [serializeEntries, List.append_assoc,
      iterAt_entry (tagAt_serializeItem entry pre _) (tagOf_ne_listEnd entry) (tagOf_ne_tupleEnd entry) hitem]
    simpa [Nat.add_assoc] using ih

end

/-- **A value is read back, whatever follows it**, and reading stops right after it. -/
theorem deserialize_serialize (hL : Lawful L loads) (x : PyObj L) (rest : Bytes) :
    (deserializeItem loads (serialize x ++ rest) 0).map Subtype.val = .ok ((serialize x).length, x) ∧
      deserialize loads (serialize x) = .ok x := by
  have hread : ∀ rest, itemAt loads (serialize x ++ rest) 0 = .ok ((serialize x).length, x) := by
    intro rest
    have h := itemAt_serializeItem hL x [] rest
    rwa [List.nil_append, List.length_nil, Nat.zero_add] at h
  refine ⟨hread rest, ?_⟩
  have h := hread []
  rw [List.append_nil] at h
  obtain ⟨hr, hitem⟩ := val_of_map_ok h
  rw [deserialize, hitem]
  rfl

end RoundTrip

/-- The state of the generator of `G1`. -/
def g1State : Bytes :=
  [0x97, 0xf1, 0xd3, 0xa7, 0x31, 0x97, 0xd7, 0x94, 0x26, 0x95, 0x63, 0x8c, 0x4f, 0xa9, 0xac, 0x0f, 0xc3, 0x68, 0x8c, 0x4f,
    0x97, 0x74, 0xb9, 0x05, 0xa1, 0x4e, 0x3a, 0x3f, 0x17, 0x1b, 0xac, 0x58, 0x6c, 0x55, 0xe8, 0x3f, 0xf9, 0x7a, 0x1a, 0xef,
    0xfb, 0x3a, 0xf0, 0x0a, 0xdb, 0x22, 0xc6, 0xbb]

/-- The library at the generator of `G1`, and pickle at `None`. -/
def genLib : SerialLib where
  Elem
    | .g1 => Unit
    | _   => Empty
  Other := Unit
  getstate
    | .g1, _           => g1State
    | .zr, x           => x.elim
    | .curve25519G, x  => x.elim
    | .curve25519ZR, x => x.elim
  setstate
    | .g1, b => if b = g1State then .ok () else .error .runtimeError
    | .zr, _ | .curve25519G, _ | .curve25519ZR, _ => .error .runtimeError
  dumps _ := [0x80, 0x04, 0x4e, 0x2e]

def genLoads (b : Bytes) : Except Exn (PyObj genLib) := if b = genLib.dumps () then .ok (.misc ()) else .error .runtimeError

theorem genLib_lawful : Lawful genLib genLoads where
  setstate_getstate
    | .g1, ()          => rfl
    | .zr, x           => x.elim
    | .curve25519G, x  => x.elim
    | .curve25519ZR, x => x.elim
  length_getstate
    | .g1, _           => rfl
    | .zr, x           => x.elim
    | .curve25519G, x  => x.elim
    | .curve25519ZR, x => x.elim
  loads_dumps _ := if_pos rfl

/-- A list of a pair and `None`, before a byte that looks like a tag. -/
theorem deserialize_serialize_pair :
    let x : PyObj genLib := .list [.tuple [.elem .g1 (), .bytes [0x02, 0xff]], .misc ()]
    Lawful genLib genLoads ∧ (deserializeItem genLoads (serialize x ++ [0x02]) 0).map Subtype.val = .ok ((serialize x).length, x) ∧
      deserialize genLoads (serialize x) = .ok x :=
  ⟨genLib_lawful, deserialize_serialize genLib_lawful _ [0x02]⟩

end Serializer
end Dpid
