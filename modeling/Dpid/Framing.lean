import Mathlib
/-!
# Framing — frames cut out of a stream by a separator

The sender puts a separator after each frame.  The reader adds what arrives to a buffer and, as long as the buffer holds
the separator, takes what is before its first occurrence.  How the stream is cut into chunks is no matter: reading is one
step a symbol (`run_eq_scan`).  The frames are read as they were written exactly when in none of them, with its separator,
the separator occurs before the end (`run_frames_iff`).
-/
namespace Framing

/-! ## Clean frames -/

section Clean

variable {α : Type} {sep : List α}

/-- In the frame and its separator the separator first ends at the end. -/
def Clean (sep d : List α) : Prop := ∀ p q, d ++ sep = p ++ sep ++ q → q = []

/-- What is read of a frame that is not clean. -/
theorem exists_clean : ∀ {d : List α}, ¬ Clean sep d → ∃ p q, d ++ sep = p ++ sep ++ q ∧ q ≠ [] ∧ Clean sep p := by
  intro d hd
  induction h : d.length using Nat.strong_induction_on generalizing d with
  | _ n ih =>
    unfold Clean at hd
    push Not at hd
    obtain ⟨p, q, hpq, hq⟩ := hd
    have hlen := congrArg List.length hpq
    have hqpos := List.length_pos_iff.2 hq
    simp only [List.length_append] at hlen
    by_cases hp : Clean sep p
    · exact ⟨p, q, hpq, hq, hp⟩
    · obtain ⟨p', q', hp', hq', hclean⟩ := ih p.length (by omega) hp rfl
      refine ⟨p', q' ++ q, ?_, by simp [hq'], hclean⟩
      rw [hpq, hp', List.append_assoc]

/-- A frame that ends in a symbol the separator does not have is clean when the separator is not in it. -/
theorem clean_concat_iff (hsep : sep ≠ []) {d : List α} {x : α} (hx : x ∉ sep) :
    Clean sep (d ++ [x]) ↔ ¬ sep <:+: d ++ [x] := by
  constructor
  · rintro hclean ⟨p, q, hpq⟩
    have hnil := hclean p (q ++ sep) (by rw [← hpq, List.append_assoc])
    exact hsep (List.append_eq_nil_iff.1 hnil).2
  · intro hnot p q hpq
    by_contra hq
    have hqpos := List.length_pos_iff.2 hq
    have hlen := congrArg List.length hpq
    simp only [List.length_append, List.length_singleton] at hlen
    by_cases hle : p.length + sep.length ≤ d.length + 1
    · have hpre : p ++ sep <+: d ++ [x] :=
        List.prefix_of_prefix_length_le ⟨q, hpq.symm⟩ (List.prefix_append _ _) (by simpa using hle)
      exact hnot ((List.suffix_append p sep).isInfix.trans hpre.isInfix)
    · -- the symbol `x` is inside the occurrence
      have hleft : (p ++ sep ++ q)[d.length]? = some x := by
        rw [← hpq]
        simp
      have hright : (p ++ sep ++ q)[d.length]? = sep[d.length - p.length]? := by
        rw [List.append_assoc, List.getElem?_append_right (by omega), List.getElem?_append_left (by omega)]
      exact hx (List.mem_of_getElem? (hright.symm.trans hleft))

end Clean

/-! ## The reader -/

variable {α β ε M : Type} [DecidableEq α]

/-- What is before and what is after the first occurrence of `sep`. -/
def splitFirst (sep : List α) : List α → Option (List α × List α)
  | []     => if sep = [] then some ([], []) else none
  | x :: l =>
    if sep <+: x :: l then some ([], (x :: l).drop sep.length)
    else (splitFirst sep l).map fun p => (x :: p.1, p.2)

/-- The reader, with what it has taken and the error that has stopped it. -/
structure Reader (α β ε : Type) where
  buf : List α
  out : List β
  error : Option ε

def start : Reader α β ε := ⟨[], [], none⟩

/-- The frames of the buffer, at most `n`, taken one by one. -/
def drain (sep : List α) (take : List α → Except ε β) : Nat → Reader α β ε → Reader α β ε
  | 0, r     => r
  | n + 1, r =>
    match splitFirst sep r.buf with
    | none               => r
    | some (frame, rest) =>
      match take frame with
      | .ok b    => drain sep take n { r with buf := rest, out := r.out ++ [b] }
      | .error e => { r with buf := [], error := some e }

def receive (sep : List α) (take : List α → Except ε β) (r : Reader α β ε) (chunk : List α) : Reader α β ε :=
  match r.error with
  | some _ => r
  | none   => drain sep take (r.buf ++ chunk).length { r with buf := r.buf ++ chunk }

def run (sep : List α) (take : List α → Except ε β) (chunks : List (List α)) : Reader α β ε :=
  chunks.foldl (receive sep take) start

/-! ## The first occurrence -/

variable {sep : List α}

theorem splitFirst_none : ∀ {l : List α}, ¬ sep <:+: l → splitFirst sep l = none
  | [], h     => by
    rw [splitFirst, if_neg]
    rintro rfl
    exact h List.infix_rfl
  | x :: l, h => by
    rw [splitFirst, if_neg fun hpre => h hpre.isInfix, splitFirst_none fun hl => h (List.infix_cons hl)]
    rfl

/-- **The split is at the occurrence that no other precedes.** -/
theorem splitFirst_append : ∀ {p q : List α}, (∀ p' q', p ++ sep ++ q = p' ++ sep ++ q' → p.length ≤ p'.length) →
    splitFirst sep (p ++ sep ++ q) = some (p, q)
  | [], q, _          => by
    rw [List.nil_append]
    cases h : sep ++ q with
    | nil      =>
      obtain ⟨rfl, rfl⟩ := List.append_eq_nil_iff.1 h
      rfl
    | cons x l =>
      rw [splitFirst, ← h, if_pos (List.prefix_append sep q), List.drop_left]
  | x :: p, q, hfirst => by
    have hnot : ¬ sep <+: x :: (p ++ sep ++ q) := by
      rintro ⟨q', hq'⟩
      exact absurd (hfirst [] q' hq'.symm) (by simp)
    have hrest := splitFirst_append fun p' q' h => Nat.le_of_succ_le_succ
      (hfirst (x :: p') q' (congrArg (List.cons x) h))
    rw [List.cons_append, List.cons_append, splitFirst, if_neg hnot, hrest]
    rfl

/-! ## One symbol at a time -/

/-- One symbol: a frame is complete when the separator ends there. -/
def scanStep (sep : List α) (take : List α → Except ε β) (r : Reader α β ε) (x : α) : Reader α β ε :=
  match r.error with
  | some _ => r
  | none   =>
    if sep <:+ r.buf ++ [x] then
      match take ((r.buf ++ [x]).take ((r.buf ++ [x]).length - sep.length)) with
      | .ok b    => { r with buf := [], out := r.out ++ [b] }
      | .error e => { r with buf := [], error := some e }
    else { r with buf := r.buf ++ [x] }

variable {take : List α → Except ε β}

theorem scan_error {r : Reader α β ε} {e : ε} (h : r.error = some e) : ∀ l : List α, l.foldl (scanStep sep take) r = r
  | []     => rfl
  | x :: l => by rw [List.foldl_cons, scanStep, h, scan_error h l]

theorem scanStep_frame {r : Reader α β ε} (hr : r.error = none) {x : α} {p : List α} (hp : p ++ sep = r.buf ++ [x]) :
    scanStep sep take r x = match take p with
      | .ok b    => { r with buf := [], out := r.out ++ [b] }
      | .error e => { r with buf := [], error := some e } := by
  rw [scanStep, hr]
  simp only
  rw [if_pos ⟨p, hp⟩, ← hp, List.length_append, Nat.add_sub_cancel, List.take_left]

/-- The first occurrence of the separator ends where no earlier one does. -/
theorem splitFirst_frame {buf p l : List α} {x : α} (hfree : ¬ sep <:+: buf) (hp : p ++ sep = buf ++ [x]) :
    splitFirst sep (buf ++ x :: l) = some (p, l) := by
  have hsplit : buf ++ x :: l = p ++ sep ++ l := by rw [hp, List.append_assoc, List.singleton_append]
  rw [hsplit]
  refine splitFirst_append fun p' q' h => ?_
  by_contra hlt
  -- an earlier occurrence ends inside `buf`
  have hlen := congrArg List.length hp
  simp only [List.length_append, List.length_singleton] at hlen
  have hpre : p' ++ sep <+: buf := by
    have hwhole : p' ++ sep <+: buf ++ x :: l := ⟨q', by rw [hsplit, h]⟩
    refine List.prefix_of_prefix_length_le hwhole (List.prefix_append buf _) ?_
    rw [List.length_append]
    omega
  exact hfree ((List.suffix_append p' sep).isInfix.trans hpre.isInfix)

/-- **Draining the buffer is reading the chunk symbol by symbol.** -/
theorem drain_eq_scan (hsep : sep ≠ []) : ∀ (l : List α) (n : Nat) (r : Reader α β ε), r.error = none →
    ¬ sep <:+: r.buf → l.length ≤ n →
    drain sep take n { r with buf := r.buf ++ l } = l.foldl (scanStep sep take) r
  | [], n, r, _, hfree, _         => by
    rw [List.append_nil]
    cases n with
    | zero   => rfl
    | succ n => rw [drain, splitFirst_none hfree]; rfl
  | x :: l, 0, r, _, _, hn        => absurd hn (by simp)
  | x :: l, n + 1, r, hr, hfree, hn => by
    rw [List.foldl_cons]
    by_cases hend : sep <:+ r.buf ++ [x]
    · obtain ⟨p, hp⟩ := hend
      rw [scanStep_frame hr hp, drain, splitFirst_frame hfree hp]
      simp only
      cases take p with
      | error e => exact (scan_error rfl l).symm
      | ok b    =>
        have hnil : ¬ sep <:+: ([] : List α) := fun h => hsep (List.infix_nil.1 h)
        exact drain_eq_scan hsep l n { r with buf := [], out := r.out ++ [b] } hr hnil (Nat.le_of_succ_le_succ hn)
    · have hstep : scanStep sep take r x = { r with buf := r.buf ++ [x] } := by
        rw [scanStep, hr]
        exact if_neg hend
      have hfree' : ¬ sep <:+: r.buf ++ [x] := fun h => (List.infix_concat_iff.1 h).elim hend hfree
      rw [hstep, ← drain_eq_scan hsep l (n + 1) { r with buf := r.buf ++ [x] } hr hfree' (by simp at hn; omega)]
      simp only [List.append_assoc, List.singleton_append]

/-- As long as it runs the reader's buffer holds no separator. -/
def Ready (sep : List α) (r : Reader α β ε) : Prop := r.error = none → ¬ sep <:+: r.buf

theorem scanStep_ready (hsep : sep ≠ []) {r : Reader α β ε} (h : Ready sep r) (x : α) :
    Ready sep (scanStep sep take r x) := by
  have hnil : ¬ sep <:+: ([] : List α) := fun h => hsep (List.infix_nil.1 h)
  unfold scanStep
  split
  · exact h
  · rename_i hr
    split
    · split
      · exact fun _ => hnil
      · exact nofun
    · rename_i hend
      exact fun _ hinf => (List.infix_concat_iff.1 hinf).elim hend (h hr)

theorem scan_ready (hsep : sep ≠ []) : ∀ (l : List α) {r : Reader α β ε}, Ready sep r →
    Ready sep (l.foldl (scanStep sep take) r)
  | [], _, h     => h
  | x :: l, _, h => scan_ready hsep l (scanStep_ready hsep h x)

theorem receive_eq_scan (hsep : sep ≠ []) {r : Reader α β ε} (h : Ready sep r) (chunk : List α) :
    receive sep take r chunk = chunk.foldl (scanStep sep take) r := by
  unfold receive
  cases hr : r.error with
  | some e => exact (scan_error hr chunk).symm
  | none   =>
    have hdrain := @drain_eq_scan α β ε _ sep take hsep chunk (r.buf ++ chunk).length r hr (h hr) (by simp)
    rw [hr] at hdrain
    exact hdrain

theorem foldl_receive_eq_scan (hsep : sep ≠ []) : ∀ (chunks : List (List α)) {r : Reader α β ε}, Ready sep r →
    chunks.foldl (receive sep take) r = chunks.flatten.foldl (scanStep sep take) r
  | [], _, _              => rfl
  | chunk :: chunks, r, h => by
    rw [List.foldl_cons, receive_eq_scan hsep h, foldl_receive_eq_scan hsep chunks (scan_ready hsep chunk h),
      List.flatten_cons, List.foldl_append]

/-- **However the stream is cut, it is read symbol by symbol.** -/
theorem run_eq_scan (hsep : sep ≠ []) (chunks : List (List α)) :
    run sep take chunks = chunks.flatten.foldl (scanStep sep take) start :=
  foldl_receive_eq_scan hsep chunks fun _ h => hsep (List.infix_nil.1 h)

/-! ## Frames -/

/-- Up to where the separator ends the symbols are kept. -/
theorem scan_open : ∀ (u : List α) {r : Reader α β ε}, r.error = none →
    (∀ v, v ≠ [] → v <+: u → ¬ sep <:+ r.buf ++ v) → u.foldl (scanStep sep take) r = { r with buf := r.buf ++ u }
  | [], r, _, _         => by rw [List.append_nil]; rfl
  | x :: u, r, hr, hnot => by
    have hstep : scanStep sep take r x = { r with buf := r.buf ++ [x] } := by
      rw [scanStep, hr]
      exact if_neg (hnot [x] (List.cons_ne_nil x []) ⟨u, rfl⟩)
    have hrest := @scan_open u { r with buf := r.buf ++ [x] } hr fun v hv hpre => by
      rw [List.append_assoc]
      exact hnot (x :: v) (List.cons_ne_nil x v) (List.prefix_cons_inj x |>.2 hpre)
    rw [List.foldl_cons, hstep, hrest, List.append_assoc]
    rfl

/-- **A clean frame is read whole.** -/
theorem scan_clean (hsep : sep ≠ []) {d : List α} (hd : Clean sep d) (out : List β) :
    (d ++ sep).foldl (scanStep sep take) (⟨[], out, none⟩ : Reader α β ε) = match take d with
      | .ok b    => ⟨[], out ++ [b], none⟩
      | .error e => ⟨[], out, some e⟩ := by
  obtain ⟨u, x, hux⟩ : ∃ u x, d ++ sep = u ++ [x] :=
    ⟨_, _, (List.dropLast_concat_getLast (List.append_ne_nil_of_right_ne_nil d hsep)).symm⟩
  have hopen : ∀ v, v ≠ [] → v <+: u → ¬ sep <:+ [] ++ v := by
    rintro v - ⟨w, rfl⟩ ⟨p, hp⟩
    rw [List.nil_append] at hp
    have hnil := hd p (w ++ [x]) (by rw [hux, ← hp, List.append_assoc])
    simp at hnil
  rw [hux, List.foldl_append, scan_open u rfl hopen, List.nil_append]
  exact @scanStep_frame α β ε _ sep take ⟨u, out, none⟩ rfl x d hux

/-- **The frames are read as they were written exactly when all are clean**, if nothing is taken from a part of one. -/
theorem scan_frames_iff (hsep : sep ≠ []) {frame : M → List α} {f : M → β} : ∀ (ms : List M) (out : List β),
    (∀ m ∈ ms, take (frame m) = .ok (f m)) →
    (∀ m ∈ ms, ∀ p, p <+: frame m → p ≠ frame m → ∃ e, take p = .error e) →
    (((ms.flatMap fun m => frame m ++ sep).foldl (scanStep sep take) (⟨[], out, none⟩ : Reader α β ε)).out = out ++ ms.map f ↔
      ∀ m ∈ ms, Clean sep (frame m))
  | [], out, _, _         => by simp
  | m :: ms, out, hok, hbad => by
    rw [List.flatMap_cons, List.foldl_append, List.forall_mem_cons]
    by_cases hd : Clean sep (frame m)
    · have hrest := scan_frames_iff hsep ms (out ++ [f m]) (fun x hx => hok x (List.mem_cons_of_mem m hx))
        (fun x hx => hbad x (List.mem_cons_of_mem m hx))
      rw [scan_clean hsep hd, hok m List.mem_cons_self]
      rw [List.append_assoc] at hrest
      exact hrest.trans (and_iff_right hd).symm
    · obtain ⟨p, q, hpq, hq, hclean⟩ := exists_clean hd
      have hlen := congrArg List.length hpq
      have hqpos := List.length_pos_iff.2 hq
      simp only [List.length_append] at hlen
      have hpre : p <+: frame m := by
        have hwhole : p <+: frame m ++ sep := ⟨sep ++ q, by rw [hpq, List.append_assoc]⟩
        exact List.prefix_of_prefix_length_le hwhole (List.prefix_append _ _) (by omega)
      obtain ⟨e, he⟩ := hbad m List.mem_cons_self p hpre (by rintro rfl; omega)
      rw [hpq, List.foldl_append, scan_clean hsep hclean, he]
      simp only
      rw [@scan_error α β ε _ sep take ⟨[], out, some e⟩ e rfl q, @scan_error α β ε _ sep take ⟨[], out, some e⟩ e rfl]
      exact iff_of_false (by simp) (fun h => hd h.1)

/-- **Whatever the chunks**, the same. -/
theorem run_frames_iff (hsep : sep ≠ []) {frame : M → List α} {f : M → β} {ms : List M}
    (hok : ∀ m ∈ ms, take (frame m) = .ok (f m))
    (hbad : ∀ m ∈ ms, ∀ p, p <+: frame m → p ≠ frame m → ∃ e, take p = .error e) {chunks : List (List α)}
    (hchunks : chunks.flatten = ms.flatMap fun m => frame m ++ sep) :
    (run sep take chunks : Reader α β ε).out = ms.map f ↔ ∀ m ∈ ms, Clean sep (frame m) := by
  rw [run_eq_scan hsep, hchunks]
  exact scan_frames_iff hsep ms [] hok hbad

end Framing
