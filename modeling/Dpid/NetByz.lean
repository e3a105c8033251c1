import Dpid.NetCrash
import Mathlib
/-!
# NetByz — more rules for runs with Byzantine parties

`Run.strengthen`: a condition on the steps that the invariants of the run imply may be assumed.  `Rations`: a good party
sends no more messages of a kind than its state accounts for, so that one of which it sends a single one is not taken
twice.  `RunProjects`: what a part of the state and some of the messages show of a run is a run of the protocol of that
part; the steps of the whole in which the part takes none stutter.
-/
namespace Net

variable {ι τ σ M : Type} [DecidableEq ι] {P : Proto ι τ σ M} {byz : Finset ι} {ok : Conf ι σ M → Label ι τ M → Prop}

/-- **A condition that every step of a run meets** by what the run has reached so far. -/
theorem Run.strengthen {ok' : Conf ι σ M → Label ι τ M → Prop}
    (h : ∀ c l c', Run P byz ok' c → ok c l → Step P byz c l c' → ok' c l) {c : Conf ι σ M} (hc : Run P byz ok c) :
    Run P byz ok' c := by
  induction hc with
  | start => exact .start
  | step _ hok hs ih => exact .step ih (h _ _ _ ih hok hs) hs

/-! ## Counting what is sent -/

section Counting

variable {kind : M → Bool} {w : σ → ι → ℕ}

/-- **No good party sends more than its ration.** -/
theorem Rations.run_sentCount_le (h : Rations P kind w) {c : Conf ι σ M} (hc : Run P byz ok c) {p : ι} (hp : p ∉ byz)
    (q : ι) : sentCount kind c.net c.hist p q ≤ w (c.loc p) q := by
  induction hc with
  | start => exact Nat.zero_le _
  | step _ _ hs ih =>
    cases hs with
    | wake _ hw =>
      exact sentCount_act (by rw [List.append_assoc]) (List.Sublist.refl _) (fun q => h.wake _ _ _ _ _ q hw) ih
    | recv _ he hr =>
      exact sentCount_act (perm_taken he _ _) (List.Sublist.refl _) (fun q => h.recv _ _ _ _ _ _ q hr) ih
    | @inject e he =>
      have hsrc : e.src ≠ p := fun heq => hp (heq ▸ he)
      rw [sentCount, List.cons_append, List.countP_cons_of_neg (by simp [hsrc])]
      exact ih

/-- **Of a kind of which a good party sends one message none is taken twice.** -/
theorem sentCount_two {net hist : List (Envelope ι M)} {e e' : Envelope ι M} (he : e ∈ net) (he' : e' ∈ hist)
    (hsrc : e'.src = e.src) (hdst : e'.dst = e.dst) (hkind : kind e.msg = true) (hkind' : kind e'.msg = true) :
    2 ≤ sentCount kind net hist e.src e.dst := by
  rw [sentCount, List.countP_append]
  have hnet : 0 < net.countP (fun x => decide ((x.src = e.src ∧ x.dst = e.dst) ∧ kind x.msg = true)) :=
    List.countP_pos_iff.2 ⟨e, he, by simp [hkind]⟩
  have hhist : 0 < hist.countP (fun x => decide ((x.src = e.src ∧ x.dst = e.dst) ∧ kind x.msg = true)) :=
    List.countP_pos_iff.2 ⟨e', he', by simp [hkind', hsrc, hdst]⟩
  omega

end Counting

/-! ## Parts of a protocol -/

section Parts

variable {τ' σ' M' : Type} {P' : Proto ι τ' σ' M'} {proj : σ → σ'} {un : M → Option M'}

/-- **A protocol with `P'` as a part**: a step leaves the part as it is and sends none of its messages, or is a step of
`P'` that meets `ok'`, a condition on the parties' states and the step. -/
structure RunProjects (P : Proto ι τ σ M) (byz : Finset ι) (ok : Conf ι σ M → Label ι τ M → Prop) (P' : Proto ι τ' σ' M')
    (ok' : (ι → σ') → Label ι τ' M' → Prop) (proj : σ → σ') (un : M → Option M') : Prop where
  init : ∀ p, proj (P.init p) = P'.init p
  wake : ∀ (c : Conf ι σ M) p t s out, Run P byz ok c → ok c (.wake p t) → p ∉ byz → P.wake p t (c.loc p) = some (s, out) →
    (proj s = proj (c.loc p) ∧ seen un out = []) ∨
      ∃ t', P'.wake p t' (proj (c.loc p)) = some (proj s, seen un out) ∧ ok' (fun q => proj (c.loc q)) (.wake p t')
  recv : ∀ (c : Conf ι σ M) (e : Envelope ι M) s out, ok c (.recv e) → e.dst ∉ byz →
    P.recv e.dst (c.loc e.dst) e.src e.msg = some (s, out) →
    (un e.msg = none ∧ proj s = proj (c.loc e.dst) ∧ seen un out = []) ∨
      ∃ m, un e.msg = some m ∧ P'.recv e.dst (proj (c.loc e.dst)) e.src m = some (proj s, seen un out) ∧
        ok' (fun q => proj (c.loc q)) (.recv ⟨e.src, e.dst, m⟩)
  inject : ∀ loc e, ok' loc (.inject e)

/-- **What a part sees of a run is a run of the part**, up to the order of the messages in flight. -/
theorem RunProjects.exists_run {ok' : (ι → σ') → Label ι τ' M' → Prop} (h : RunProjects P byz ok P' ok' proj un)
    {c : Conf ι σ M} (hc : Run P byz ok c) : ∃ net, net.Perm (seenNet un c.net) ∧
      Run P' byz (fun c l => ok' c.loc l) ⟨fun p => proj (c.loc p), net, seenNet un c.hist⟩ := by
  have hupdate : ∀ (loc : ι → σ) p s, (fun q => proj (Function.update loc p s q)) =
      Function.update (fun q => proj (loc q)) p (proj s) := fun loc p s => Function.comp_update proj loc p s
  induction hc with
  | start =>
    refine ⟨[], List.Perm.refl _, ?_⟩
    have hinit : (fun p => proj (P.init p)) = P'.init := funext h.init
    show Run P' byz _ ⟨fun p => proj (P.init p), [], []⟩
    rw [hinit]
    exact .start
  | @step c c' l hc hok hs ih =>
    obtain ⟨net, hnet, hpart⟩ := ih
    cases hs with
    | @wake p t s out hp hw =>
      rcases h.wake c p t s out hc hok hp hw with ⟨hproj, hout⟩ | ⟨t', hw', hok'⟩
      · refine ⟨net, ?_, ?_⟩
        · rw [seenNet_append, hout]
          exact hnet
        · rw [comp_update_of_eq hproj]
          exact hpart
      · refine ⟨post p (seen un out) ++ net, ?_, ?_⟩
        · rw [seenNet_append]
          exact hnet.append_left _
        · rw [hupdate]
          exact hpart.step hok' (.wake hp hw')
    | @recv e rest s out hp he hr =>
      rcases h.recv c e s out hok hp hr with ⟨hun, hproj, hout⟩ | ⟨m, hun, hr', hok'⟩
      · refine ⟨net, ?_, ?_⟩
        · rw [seenNet_append, hout]
          exact hnet.trans (seenNet_perm_none he hun)
        · rw [comp_update_of_eq hproj, seenNet_cons_none _ hun]
          exact hpart
      · refine ⟨post e.dst (seen un out) ++ seenNet un rest, ?_, ?_⟩
        · rw [seenNet_append]
        · rw [hupdate, seenNet_cons_some _ hun]
          exact hpart.step hok' (.recv (e := ⟨e.src, e.dst, m⟩) hp (hnet.trans (seenNet_perm_some he hun)) hr')
    | @inject e he =>
      cases hun : un e.msg with
      | none =>
        refine ⟨net, ?_, hpart⟩
        rw [seenNet_cons_none _ hun]
        exact hnet
      | some m =>
        refine ⟨⟨e.src, e.dst, m⟩ :: net, ?_, hpart.step (h.inject _ _) (.inject he)⟩
        rw [seenNet_cons_some _ hun]
        exact hnet.cons _

end Parts

end Net
