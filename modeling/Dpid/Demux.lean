import Mathlib
/-!
# Demux — a stream sorted into queues

A reader takes the elements of a stream in order; `route` gives for each a queue and what to put into it.  It stops at the
first element for which `route` fails; the rest of the stream is not taken.
-/
namespace Demux

variable {α β ε Q : Type}

/-- The queues, each with what was put into it, oldest first, and the error that has stopped the reader. -/
structure State (Q β ε : Type) where
  queues : Q → List β
  error : Option ε

def start : State Q β ε := ⟨fun _ => [], none⟩

/-- `route` gives a queue. -/
def Routed (route : α → Except ε (Q × β)) (a : α) : Prop := (route a).isOk = true

instance decidableRouted (route : α → Except ε (Q × β)) (a : α) : Decidable (Routed route a) :=
  inferInstanceAs (Decidable (_ = true))

theorem routed_iff {route : α → Except ε (Q × β)} {a : α} : Routed route a ↔ ∃ q b, route a = .ok (q, b) := by
  unfold Routed
  cases h : route a with
  | ok x    => exact ⟨fun _ => ⟨x.1, x.2, rfl⟩, fun _ => rfl⟩
  | error e => exact ⟨nofun, nofun⟩

theorem not_routed {route : α → Except ε (Q × β)} {a : α} {e : ε} (h : route a = .error e) : ¬ Routed route a := by
  rw [routed_iff, h]
  rintro ⟨q, b, hq⟩
  cases hq

variable [DecidableEq Q]

def State.put (s : State Q β ε) (q : Q) (b : β) : State Q β ε :=
  { s with queues := Function.update s.queues q (s.queues q ++ [b]) }

theorem put_queues_self (s : State Q β ε) (q : Q) (b : β) : (s.put q b).queues q = s.queues q ++ [b] :=
  Function.update_self _ _ _

theorem put_queues_of_ne (s : State Q β ε) {q q' : Q} (h : q ≠ q') (b : β) : (s.put q' b).queues q = s.queues q :=
  Function.update_of_ne h _ _

/-- The reader: what it does with the elements of the stream. -/
def run (route : α → Except ε (Q × β)) : List α → State Q β ε → State Q β ε
  | [], s     => s
  | a :: l, s =>
    match route a with
    | .ok (q, b) => run route l (s.put q b)
    | .error e   => { s with error := some e }

variable {route : α → Except ε (Q × β)}

theorem run_cons_ok {a : α} {q : Q} {b : β} (h : route a = .ok (q, b)) (l : List α) (s : State Q β ε) :
    run route (a :: l) s = run route l (s.put q b) := by
  rw [run, h]

theorem run_cons_error {a : α} {e : ε} (h : route a = .error e) (l : List α) (s : State Q β ε) :
    run route (a :: l) s = { s with error := some e } := by
  rw [run, h]

/-- **Every element taken is in its queue once, in the order of the stream.** -/
theorem run_queues (item : α → Option β) {goes : Q → α → Prop} [∀ q a, Decidable (goes q a)] :
    ∀ (l : List α) (s : State Q β ε),
      (∀ a ∈ l, ∀ q' b, route a = .ok (q', b) → item a = some b ∧ ∀ q, goes q a ↔ q = q') → ∀ q,
        (run route l s).queues q = s.queues q ++
          ((l.takeWhile (fun a => decide (Routed route a))).filter (fun a => decide (goes q a))).filterMap item
  | [], s, _, q       => (List.append_nil _).symm
  | a :: l, s, hgoes, q => by
    cases hroute : route a with
    | error e =>
      rw [run_cons_error hroute, List.takeWhile_cons_of_neg (by simpa using not_routed hroute)]
      exact (List.append_nil _).symm
    | ok x    =>
      obtain ⟨q', b⟩ := x
      have hrouted : Routed route a := routed_iff.2 ⟨q', b, hroute⟩
      obtain ⟨hitem, hgo⟩ := hgoes a List.mem_cons_self q' b hroute
      rw [run_cons_ok hroute, run_queues item l _ (fun x hx => hgoes x (List.mem_cons_of_mem a hx)) q,
        List.takeWhile_cons_of_pos (by simpa using hrouted)]
      by_cases heq : q = q'
      · subst heq
        rw [List.filter_cons_of_pos (by simpa using (hgo q).2 rfl), put_queues_self, List.append_assoc,
          List.filterMap_cons_some hitem]
        rfl
      · rw [List.filter_cons_of_neg (by simpa using fun h => heq ((hgo q).1 h)), put_queues_of_ne s heq]

theorem run_error_of_routed : ∀ (l : List α) (s : State Q β ε), (∀ a ∈ l, Routed route a) →
    (run route l s).error = s.error
  | [], _, _     => rfl
  | a :: l, s, h => by
    obtain ⟨q, b, hq⟩ := routed_iff.1 (h a List.mem_cons_self)
    rw [run_cons_ok hq]
    exact run_error_of_routed l (s.put q b) (fun x hx => h x (List.mem_cons_of_mem a hx))

/-- **The reader stops with the error of the first element that has none.** -/
theorem run_error_of_not_routed : ∀ (l : List α) (s : State Q β ε), (∃ a ∈ l, ¬ Routed route a) →
    ∃ pre a post e, l = pre ++ a :: post ∧ (∀ x ∈ pre, Routed route x) ∧ route a = .error e ∧
      (run route l s).error = some e
  | [], _, h     => by simp at h
  | a :: l, s, h => by
    cases hroute : route a with
    | error e => exact ⟨[], a, l, e, rfl, nofun, hroute, by rw [run_cons_error hroute]⟩
    | ok x    =>
      obtain ⟨q, b⟩ := x
      have hrouted : Routed route a := routed_iff.2 ⟨q, b, hroute⟩
      have hrest : ∃ x ∈ l, ¬ Routed route x := by
        obtain ⟨x, hx, hnot⟩ := h
        rcases List.mem_cons.1 hx with rfl | hx
        · exact absurd hrouted hnot
        · exact ⟨x, hx, hnot⟩
      obtain ⟨pre, x, post, e, rfl, hpre, he, hrun⟩ := run_error_of_not_routed l (s.put q b) hrest
      refine ⟨a :: pre, x, post, e, rfl, fun y hy => ?_, he, (run_cons_ok hroute _ s).symm ▸ hrun⟩
      rcases List.mem_cons.1 hy with rfl | hy
      · exact hrouted
      · exact hpre y hy

end Demux
