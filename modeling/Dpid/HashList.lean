import Dpid.Sha256
import Mathlib
/-!
# HashList — the text of a list of hashes

A dispersal is known by `str([hash(piece) for piece in stripes])`: the text Python gives a list of byte strings
(`strList`), from which the list can be read back (`strList_append_inj`).  Where no two of the strings hashed collide, a
string with the hash listed at a place is the stripe of that place (`stripe_of_hash`).
-/
namespace Dpid

/-! ## Texts of byte strings -/

def apostrophe : Char := Char.ofNat 39

def quotationMark : Char := Char.ofNat 34

def backslash : Char := Char.ofNat 92

/-- One byte of a literal between the quotes `quote`. -/
def reprByte (quote : Char) (b : UInt8) : List Char :=
  let c := Char.ofNat b.toNat
  if c = quote ∨ c = backslash then [backslash, c]
  else if b = 9 then [backslash, 't']
  else if b = 10 then [backslash, 'n']
  else if b = 13 then [backslash, 'r']
  else if 32 ≤ b ∧ b < 127 then [c]
  else [backslash, 'x', Nat.digitChar (b.toNat / 16), Nat.digitChar (b.toNat % 16)]

/-- The quotes of `repr(b)`: apostrophes, unless there is one inside and no quotation mark. -/
def quoteOf (b : Bytes) : Char := if 39 ∈ b ∧ 34 ∉ b then quotationMark else apostrophe

/-- `repr(b)`, which is `str(b)`. -/
def reprBytes (b : Bytes) : List Char := 'b' :: quoteOf b :: b.flatMap (reprByte (quoteOf b)) ++ [quoteOf b]

/-- `str(l)` for a list of byte strings. -/
def strList (l : List Bytes) : List Char := '[' :: [',', ' '].intercalate (l.map reprBytes) ++ [']']

example : strList [[104, 39, 0], [92]] =
    ['[', 'b', quotationMark, 'h', apostrophe, backslash, 'x', '0', '0', quotationMark, ',', ' ', 'b', apostrophe,
      backslash, backslash, apostrophe, ']'] := by decide

/-! ## Reading texts back -/

def hexValue (c : Char) : Nat := if c.toNat < 58 then c.toNat - 48 else c.toNat - 87

/-- The first byte of a literal, and what follows it. -/
def readByte : List Char → Option (UInt8 × List Char)
  | []        => none
  | c :: rest =>
    if c = backslash then
      match rest with
      | []         => none
      | d :: rest' =>
        if d = 't' then some (9, rest')
        else if d = 'n' then some (10, rest')
        else if d = 'r' then some (13, rest')
        else if d = 'x' then
          match rest' with
          | h :: l :: rest'' => some (UInt8.ofNat (16 * hexValue h + hexValue l), rest'')
          | _                => none
        else some (UInt8.ofNat d.toNat, rest')
    else some (UInt8.ofNat c.toNat, rest)

theorem toNat_ofNat_byte (b : UInt8) : (Char.ofNat b.toNat).toNat = b.toNat := by
  have hb : b.toNat < 256 := b.toNat_lt
  rw [Char.ofNat, dif_pos (Or.inl (by omega))]
  rfl

theorem ofNat_toNat_byte (b : UInt8) : UInt8.ofNat (Char.ofNat b.toNat).toNat = b := by
  rw [toNat_ofNat_byte]
  exact UInt8.ofNat_toNat

theorem hexValue_digitChar : ∀ n < 16, hexValue (Nat.digitChar n) = n := by decide

/-- The quotes of a literal. -/
def IsQuote (q : Char) : Prop := q = apostrophe ∨ q = quotationMark

theorem quoteOf_isQuote (b : Bytes) : IsQuote (quoteOf b) := by
  unfold quoteOf
  split
  · exact Or.inr rfl
  · exact Or.inl rfl

/-- **A byte is read back from its text.** -/
theorem readByte_reprByte {q : Char} (hq : IsQuote q) (b : UInt8) (r : List Char) :
    readByte (reprByte q b ++ r) = some (b, r) := by
  unfold reprByte
  simp only
  by_cases hc : Char.ofNat b.toNat = q ∨ Char.ofNat b.toNat = backslash
  · rw [if_pos hc]
    have hplain : ∀ d : Char, (d = apostrophe ∨ d = quotationMark ∨ d = backslash) →
        d ≠ 't' ∧ d ≠ 'n' ∧ d ≠ 'r' ∧ d ≠ 'x' := by
      rintro d (rfl | rfl | rfl) <;> decide
    obtain ⟨ht, hn, hr, hx⟩ := hplain (Char.ofNat b.toNat) (by
      rcases hc with h | h
      · rcases hq with hq | hq
        · exact Or.inl (h.trans hq)
        · exact Or.inr (Or.inl (h.trans hq))
      · exact Or.inr (Or.inr h))
    simp only [List.cons_append, List.nil_append, readByte, if_true, if_neg ht, if_neg hn, if_neg hr, if_neg hx,
      ofNat_toNat_byte]
  · rw [if_neg hc]
    have hback : Char.ofNat b.toNat ≠ backslash := fun h => hc (Or.inr h)
    by_cases h9 : b = 9
    · subst h9
      rfl
    · by_cases h10 : b = 10
      · subst h10
        rfl
      · by_cases h13 : b = 13
        · subst h13
          rfl
        · rw [if_neg h9, if_neg h10, if_neg h13]
          by_cases hp : 32 ≤ b ∧ b < 127
          · rw [if_pos hp]
            simp only [List.cons_append, List.nil_append, readByte, if_neg hback, ofNat_toNat_byte]
          · rw [if_neg hp]
            have hb : b.toNat < 256 := b.toNat_lt
            have hsum : 16 * (b.toNat / 16) + b.toNat % 16 = b.toNat := Nat.div_add_mod _ _
            have hx : readByte (backslash :: 'x' :: Nat.digitChar (b.toNat / 16) :: Nat.digitChar (b.toNat % 16) :: r) =
                some (UInt8.ofNat (16 * hexValue (Nat.digitChar (b.toNat / 16)) +
                  hexValue (Nat.digitChar (b.toNat % 16))), r) := rfl
            rw [List.cons_append, List.cons_append, List.cons_append, List.cons_append, List.nil_append, hx,
              hexValue_digitChar _ (by omega), hexValue_digitChar _ (by omega), hsum, UInt8.ofNat_toNat]

/-- No byte's text starts with the quote that ends the literal. -/
theorem reprByte_ne_quote {q : Char} (hq : IsQuote q) (b : UInt8) (r r' : List Char) :
    reprByte q b ++ r ≠ q :: r' := by
  have hback : backslash ≠ q := by rcases hq with rfl | rfl <;> decide
  intro h
  unfold reprByte at h
  simp only at h
  split at h
  · exact hback (List.cons.inj h).1
  · rename_i hc
    split at h
    · exact hback (List.cons.inj h).1
    · split at h
      · exact hback (List.cons.inj h).1
      · split at h
        · exact hback (List.cons.inj h).1
        · split at h
          · exact hc (Or.inl (List.cons.inj h).1)
          · exact hback (List.cons.inj h).1

/-- **The bytes of a literal are read back up to its closing quote.** -/
theorem body_append_inj {q : Char} (hq : IsQuote q) : ∀ {b b' : Bytes} {r r' : List Char},
    b.flatMap (reprByte q) ++ q :: r = b'.flatMap (reprByte q) ++ q :: r' → b = b' ∧ r = r'
  | [], [], r, r', h           => ⟨rfl, (List.cons.inj h).2⟩
  | [], y :: b', r, r', h      => by
    rw [List.flatMap_cons, List.append_assoc] at h
    exact absurd h.symm (reprByte_ne_quote hq y _ _)
  | x :: b, [], r, r', h       => by
    rw [List.flatMap_cons, List.append_assoc] at h
    exact absurd h (reprByte_ne_quote hq x _ _)
  | x :: b, y :: b', r, r', h  => by
    rw [List.flatMap_cons, List.flatMap_cons, List.append_assoc, List.append_assoc] at h
    have hread := congrArg readByte h
    rw [readByte_reprByte hq, readByte_reprByte hq, Option.some.injEq, Prod.mk.injEq] at hread
    obtain ⟨hb, hr⟩ := body_append_inj hq hread.2
    exact ⟨by rw [hread.1, hb], hr⟩

/-- **A byte string is read back from its text.** -/
theorem reprBytes_append_inj {b b' : Bytes} {r r' : List Char} (h : reprBytes b ++ r = reprBytes b' ++ r') :
    b = b' ∧ r = r' := by
  simp only [reprBytes, List.cons_append, List.append_assoc, List.nil_append, List.cons.injEq, true_and] at h
  obtain ⟨hq, h⟩ := h
  rw [hq] at h
  exact body_append_inj (quoteOf_isQuote b') h

/-- What follows `[` in the text of a list. -/
def listTail : List Bytes → List Char
  | []     => [']']
  | [b]    => reprBytes b ++ [']']
  | b :: l => reprBytes b ++ ',' :: ' ' :: listTail l

theorem strList_eq : ∀ l : List Bytes, strList l = '[' :: listTail l
  | []          => rfl
  | [b]         => by simp [strList, listTail, List.intercalate]
  | b :: c :: l => by
    have h := strList_eq (c :: l)
    simp only [strList, List.cons_append, List.cons.injEq, true_and] at h
    rw [listTail, ← h]
    · simp [strList, List.intercalate]
    · simp

theorem listTail_one (b : Bytes) : listTail [b] = reprBytes b ++ [']'] := rfl

theorem listTail_cons (b c : Bytes) (l : List Bytes) :
    listTail (b :: c :: l) = reprBytes b ++ ',' :: ' ' :: listTail (c :: l) := rfl

theorem listTail_append_inj : ∀ {l l' : List Bytes} {r r' : List Char}, listTail l ++ r = listTail l' ++ r' →
    l = l' ∧ r = r'
  | [], [], r, r', h                     => ⟨rfl, (List.cons.inj h).2⟩
  | [], [b], r, r', h                    => absurd (List.cons.inj h).1 (by decide)
  | [], b :: c :: l, r, r', h            => absurd (List.cons.inj h).1 (by decide)
  | [b], [], r, r', h                    => absurd (List.cons.inj h).1 (by decide)
  | b :: c :: l, [], r, r', h            => absurd (List.cons.inj h).1 (by decide)
  | [b], [b'], r, r', h                  => by
    rw [listTail_one, listTail_one, List.append_assoc, List.append_assoc] at h
    obtain ⟨hb, hr⟩ := reprBytes_append_inj h
    exact ⟨by rw [hb], (List.cons.inj hr).2⟩
  | [b], b' :: c :: l, r, r', h          => by
    rw [listTail_one, listTail_cons, List.append_assoc, List.append_assoc] at h
    exact absurd (List.cons.inj (reprBytes_append_inj h).2).1 (by decide)
  | b :: c :: l, [b'], r, r', h          => by
    rw [listTail_one, listTail_cons, List.append_assoc, List.append_assoc] at h
    exact absurd (List.cons.inj (reprBytes_append_inj h).2).1 (by decide)
  | b :: c :: l, b' :: c' :: l', r, r', h => by
    rw [listTail_cons, listTail_cons, List.append_assoc, List.append_assoc] at h
    obtain ⟨hb, hl⟩ := reprBytes_append_inj h
    obtain ⟨hl, hr⟩ := listTail_append_inj (List.cons.inj (List.cons.inj hl).2).2
    exact ⟨by rw [hb, hl], hr⟩

/-- **A list is read back from its text.** -/
theorem strList_append_inj {l l' : List Bytes} {r r' : List Char} (h : strList l ++ r = strList l' ++ r') :
    l = l' ∧ r = r' := by
  rw [strList_eq, strList_eq] at h
  exact listTail_append_inj (List.cons.inj h).2

/-- **A text is read back from its bytes.** -/
theorem Text.encode_str_inj {t t' : List Char} (h : (Text.str t).encode = (Text.str t').encode) : t = t' := by
  apply String.ofList_injective
  apply String.toByteArray_inj.1
  rw [String.toByteArray_ofList, String.toByteArray_ofList]
  exact congrArg List.toByteArray h

/-! ## Hashes of stripes -/

/-- `[hash(piece) for piece in stripes]`. -/
def hashes (H : Hash) (stripes : List Bytes) : List Bytes := stripes.map H

variable {H : Hash} {S : List Bytes}

@[simp] theorem hashes_length : (hashes H S).length = S.length := List.length_map _

theorem hashes_getElem? (k : Nat) : (hashes H S)[k]? = S[k]?.map H := List.getElem?_map

/-- **A string with the hash listed for a stripe is that stripe.** -/
theorem stripe_of_hash {X : Set Bytes} (hX : Set.InjOn H X) (hS : ∀ x ∈ S, x ∈ X) {b : Bytes} (hb : b ∈ X) {k : Nat}
    (h : (hashes H S)[k]? = some (H b)) : S[k]? = some b := by
  rw [hashes_getElem?] at h
  obtain ⟨a, ha, hab⟩ := Option.map_eq_some_iff.1 h
  have heq : a = b := hX (hS a (List.mem_of_getElem? ha)) hb hab
  rw [ha, heq]

end Dpid
