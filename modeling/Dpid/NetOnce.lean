import Dpid.NetCrash
import Mathlib
/-!
# NetOnce — messages that are sent once

A state tells which messages its party has sent (`Sent`).  Where every step sends only messages that were not sent
before, and each to a party once, no message between two parties is there twice, in flight or delivered: what is in
flight has not been delivered.
-/
namespace Net

variable {ι τ σ M : Type} [DecidableEq ι] {P : Proto ι τ σ M} {ok : Conf ι σ M → Label ι τ M → Prop}
  {I : Conf ι σ M → Prop} {Sent : σ → M → Prop}

/-- A step from `s` to `s'` sends `out`: messages that were not sent before, each to a party once. -/
structure Fresh (Sent : σ → M → Prop) (s s' : σ) (out : List (ι × M)) : Prop where
  nodup : out.Nodup
  new : ∀ o ∈ out, ¬ Sent s o.2
  sent : ∀ o ∈ out, Sent s' o.2
  keeps : ∀ m, Sent s m → Sent s' m

/-- **A rule for messages sent once**: every step from a configuration with `I` is fresh. -/
structure Once (P : Proto ι τ σ M) (ok : Conf ι σ M → Label ι τ M → Prop) (I : Conf ι σ M → Prop) (Sent : σ → M → Prop) :
    Prop where
  wake : ∀ (c : Conf ι σ M) p t s out, I c → ok c (.wake p t) → P.wake p t (c.loc p) = some (s, out) →
    Fresh Sent (c.loc p) s out
  recv : ∀ (c : Conf ι σ M) e s out, I c → ok c (.recv e) → e ∈ c.net →
    P.recv e.dst (c.loc e.dst) e.src e.msg = some (s, out) → Fresh Sent (c.loc e.dst) s out

/-- What the rule concludes. -/
structure Single (Sent : σ → M → Prop) (c : Conf ι σ M) : Prop where
  nodup : (c.net ++ c.hist).Nodup
  sent : ∀ e ∈ c.net ++ c.hist, Sent (c.loc e.src) e.msg

omit [DecidableEq ι] in
/-- What is in flight has not been delivered. -/
theorem Single.notMem_hist {c : Conf ι σ M} (h : Single Sent c) {e : Envelope ι M} (he : e ∈ c.net) : e ∉ c.hist :=
  fun hhist => (List.nodup_append.1 h.nodup).2.2 e he e hhist rfl

theorem Single.act {c : Conf ι σ M} (h : Single Sent c) {p : ι} {s : σ} {out : List (ι × M)}
    (hf : Fresh Sent (c.loc p) s out) {net hist : List (Envelope ι M)}
    (hperm : (net ++ hist).Perm (post p out ++ (c.net ++ c.hist))) : Single Sent ⟨Function.update c.loc p s, net, hist⟩ where
  nodup := by
    have hinj : Function.Injective (fun o : ι × M => (⟨p, o.1, o.2⟩ : Envelope ι M)) := by
      intro o o' heq
      obtain ⟨-, hdst, hmsg⟩ := Envelope.mk.inj heq
      exact Prod.ext hdst hmsg
    refine (hperm.nodup_iff).2 (List.nodup_append.2 ⟨hf.nodup.map hinj, h.nodup, ?_⟩)
    rintro e he e' hold rfl
    obtain ⟨hsrc, hmem⟩ := mem_post.1 he
    exact hf.new _ hmem (hsrc ▸ h.sent e hold)
  sent := by
    intro e he
    have hkeeps : ∀ q m, Sent (c.loc q) m → Sent (Function.update c.loc p s q) m := by
      intro q m hm
      by_cases hq : q = p
      · subst hq
        rw [Function.update_self]
        exact hf.keeps m hm
      · rw [Function.update_of_ne hq]
        exact hm
    rcases List.mem_append.1 (hperm.mem_iff.1 he) with he | he
    · obtain ⟨hsrc, hmem⟩ := mem_post.1 he
      show Sent (Function.update c.loc p s e.src) e.msg
      rw [hsrc, Function.update_self]
      exact hf.sent _ hmem
    · exact hkeeps _ _ (h.sent e he)

/-- **No message is there twice.** -/
theorem Once.run (h : Once P ok I Sent) (hI : ∀ c, Run P ∅ ok c → I c) {c : Conf ι σ M} (hc : Run P ∅ ok c) :
    Single Sent c := by
  induction hc with
  | start => exact ⟨List.nodup_nil, nofun⟩
  | step hc hok hs ih =>
    cases hs with
    | wake hp hw    => exact ih.act (h.wake _ _ _ _ _ (hI _ hc) hok hw) (by rw [List.append_assoc])
    | recv hp he hr =>
      have hmem := (he.mem_iff).2 List.mem_cons_self
      exact ih.act (h.recv _ _ _ _ (hI _ hc) hok hmem hr) (perm_taken he _ _)
    | inject he     => exact absurd he (Finset.notMem_empty _)

end Net
