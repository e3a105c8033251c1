import Mathlib.Data.List.Basic
import Mathlib.Data.List.Forall2
/-!
# Bytes — the Python values the protocols pass around

Byte strings, text and its UTF-8 encoding, the slices `m[a:b]` and `m[:stop]`, list indexing with Python's negative
indices, and the exceptions a call may raise.  A call that may raise returns `Except Exn`.
-/
namespace Dpid

/-- The exceptions the modelled code raises, by class; a `ValueError` keeps its text. -/
inductive Exn where
  | assertionError
  | valueError (msg : String)
  | indexError
  | keyError
  | typeError
  | attributeError
  | zfecError
  | redundantMessageError
  | unboundLocalError
  | unknownTagError
  | runtimeError
  | memoryError
  | unicodeEncodeError
  | full
  | zeroDivisionError
  | interpolationError
deriving DecidableEq, Repr

abbrev Bytes := List UInt8

/-- What the code accepts as a message: `isinstance(m, (str, bytes))`. -/
inductive Text where
  | str (s : List Char)
  | bytes (b : Bytes)
deriving DecidableEq

/-- The sender's id a message carries: an integer or a string.  Where the code takes `str(sender)` any other value may
stand as its text. -/
inductive PyId where
  | int (i : Int)
  | text (t : String)
deriving DecidableEq

/-- `str(sender)`. -/
def PyId.str : PyId → String
  | .int i  => i.repr
  | .text t => t

/-- `chr(c).encode()`. -/
def chrEncode (c : Nat) : Bytes := String.utf8EncodeChar (Char.ofNat c)

/-- `m.encode()`, a byte string staying what it is. -/
def Text.encode : Text → Bytes
  | .str s   => s.flatMap String.utf8EncodeChar
  | .bytes b => b

/-- `m[a:b]` for `0 <= a <= b`. -/
def slice (m : Bytes) (a b : Nat) : Bytes := (m.drop a).take (b - a)

/-- `m[:stop]`: a negative `stop` counts from the end. -/
def sliceTo (m : Bytes) (stop : Int) : Bytes :=
  if 0 ≤ stop then m.take stop.toNat else m.take (m.length - (-stop).toNat)

/-- The position `l[i]` reads in a list of length `n`, for any integer `i`. -/
def pyIndex (n : Nat) (i : Int) : Except Exn Nat :=
  if 0 ≤ i ∧ i < n then .ok i.toNat
  else if i < 0 ∧ -n ≤ i then .ok (n - (-i).toNat)
  else .error .indexError

/-! ## Ids -/

theorem PyId.str_natCast_inj {i j : Nat} (h : (PyId.int i).str = (PyId.int j).str) : i = j := by
  have hrepr : i.repr = j.repr := h
  have hdigits : Nat.toDigits 10 i = Nat.toDigits 10 j := by rw [← Nat.toList_repr, hrepr, Nat.toList_repr]
  simpa using congrArg (fun l => Nat.ofDigitChars 10 l 0) hdigits

/-! ## Slices -/

theorem slice_length (m : Bytes) (a b : Nat) (hb : b ≤ m.length) : (slice m a b).length = b - a := by
  rw [slice, List.length_take, List.length_drop]; omega

/-- **Consecutive slices of one width join to a prefix.** -/
theorem flatten_slices (m : Bytes) (w : Nat) : ∀ (k : Nat), k * w ≤ m.length →
    ((List.range k).map (fun i => slice m (i * w) ((i + 1) * w))).flatten = m.take (k * w)
  | 0, _ => by simp
  | k + 1, h => by
    have hk : k * w ≤ m.length := Nat.le_trans (Nat.mul_le_mul_right _ (Nat.le_succ k)) h
    have hw : (k + 1) * w - k * w = w := by rw [Nat.succ_mul]; omega
    rw [List.range_succ, List.map_append, List.flatten_append, flatten_slices m w k hk]
    simp only [List.map_cons, List.map_nil, List.flatten_cons, List.flatten_nil, List.append_nil, slice, hw]
    rw [Nat.succ_mul, List.take_add]

/-! ## Indices -/

@[simp] theorem pyIndex_natCast {n k : Nat} (h : k < n) : pyIndex n (k : Int) = .ok k := by
  unfold pyIndex
  rw [if_pos ⟨by omega, by omega⟩]
  rfl

/-! ## Calls in a row -/

theorem bind_eq_ok.{u} {α β : Type u} {x : Except Exn α} {f : α → Except Exn β} {b : β} :
    x.bind f = .ok b ↔ ∃ a, x = .ok a ∧ f a = .ok b := by
  cases x with
  | error e =>
    refine ⟨nofun, ?_⟩
    rintro ⟨a, h, -⟩
    cases h
  | ok a    =>
    refine ⟨fun h => ⟨a, rfl, h⟩, ?_⟩
    rintro ⟨a', h, hf⟩
    cases h
    exact hf

/-! ## Lists of calls -/

theorem mapM_eq_ok {α β : Type} (f : α → Except Exn β) : ∀ (l : List α) (out : List β),
    l.mapM f = .ok out ↔ List.Forall₂ (fun a b => f a = .ok b) l out
  | [], out => by
    rw [List.mapM_nil, List.forall₂_nil_left_iff]
    exact ⟨fun h => (Except.ok.inj h).symm, fun h => h ▸ rfl⟩
  | a :: l, out => by
    rw [List.mapM_cons, List.forall₂_cons_left_iff]
    cases ha : f a with
    | error e => exact ⟨fun h => (nomatch h), fun ⟨_, _, h, _⟩ => (nomatch h)⟩
    | ok b =>
      cases hl : l.mapM f with
      | error e =>
        refine ⟨fun h => (nomatch h), fun ⟨_, rest, _, hrest, _⟩ => ?_⟩
        rw [(mapM_eq_ok f l rest).2 hrest] at hl
        cases hl
      | ok bs =>
        have hbs := (mapM_eq_ok f l bs).1 hl
        constructor
        · intro h
          exact ⟨b, bs, rfl, hbs, (Except.ok.inj h).symm⟩
        · rintro ⟨b', bs', hb, hbs', rfl⟩
          cases hb
          rw [(mapM_eq_ok f l bs').2 hbs'] at hl
          cases hl
          rfl

theorem exists_mapM_ok {α β : Type} {f : α → Except Exn β} : ∀ {l : List α}, (∀ a ∈ l, ∃ b, f a = .ok b) →
    ∃ out, l.mapM f = .ok out
  | [], _     => ⟨[], List.mapM_nil⟩
  | a :: l, h => by
    obtain ⟨b, hb⟩ := h a List.mem_cons_self
    obtain ⟨out, hout⟩ := exists_mapM_ok (fun a' ha' => h a' (List.mem_cons_of_mem a ha'))
    exact ⟨b :: out, by rw [List.mapM_cons, hb, hout]; rfl⟩

theorem exists_of_mem_mapM {α β : Type} {f : α → Except Exn β} {l : List α} {out : List β} (h : l.mapM f = .ok out)
    {b : β} (hb : b ∈ out) : ∃ a ∈ l, f a = .ok b := by
  induction (mapM_eq_ok f l out).1 h with
  | nil => cases hb
  | @cons a b' l out hab hall ih =>
    rcases List.mem_cons.1 hb with rfl | hb
    · exact ⟨a, List.mem_cons_self, hab⟩
    · obtain ⟨a', ha', hf⟩ := ih ((mapM_eq_ok f l out).2 hall) hb
      exact ⟨a', List.mem_cons_of_mem a ha', hf⟩

theorem map_eq_of_mapM {α β γ : Type} {f : α → Except Exn β} {g : β → γ} {k : α → γ} {l : List α} {out : List β}
    (h : l.mapM f = .ok out) (hk : ∀ a b, f a = .ok b → g b = k a) : out.map g = l.map k := by
  induction (mapM_eq_ok f l out).1 h with
  | nil => rfl
  | @cons a b l out hab hall ih => rw [List.map_cons, List.map_cons, hk a b hab, ih ((mapM_eq_ok f l out).2 hall)]

end Dpid
