import Koro.Machine.Basic

/-!
This module contains machines that come to rest: where every step that meets a condition lowers a
measure, the runs of such steps have bounded length, and each of them can be continued to a state in
which no such step is left.
-/

namespace Machine

variable {σ : Type u} {α : Type v} {m : Machine σ α} {ok : σ → α → Prop} {I : σ → Prop}
variable {μ : σ → Nat} {s t : σ}

variable (m ok) in
-- No step that meets `ok` can happen
def Rests (s : σ) : Prop :=
  ∀ a, ok s a → m.step s a = none

variable (m ok I μ) in
structure Lowers : Prop where
  keeps : ∀ s a t, I s → ok s a → m.step s a = some t → I t
  lowers : ∀ s a t, I s → ok s a → m.step s a = some t → μ t < μ s

theorem Lowers.mono {ok' : σ → α → Prop} (h : Lowers m ok I μ) (hok : ∀ s a, ok' s a → ok s a)
    : Lowers m ok' I μ where
  keeps := by
    intro s a t hI ha hat
    exact h.keeps s a t hI (hok s a ha) hat
  lowers := by
    intro s a t hI ha hat
    exact h.lowers s a t hI (hok s a ha) hat

theorem Lowers.length_add_le (h : Lowers m ok I μ) (as : List α) (hI : I s)
    (hexec : m.exec s as = some t) (hok : m.Meets ok s as)
    : as.length + μ t ≤ μ s := by
  induction as generalizing s with
  | nil =>
    simp only [exec, Option.some.injEq] at hexec
    simp [hexec]
  | cons a as ih =>
    simp only [exec, Option.bind_eq_some_iff] at hexec
    rcases hexec with ⟨r, hr, hrt⟩
    rcases hok r hr with ⟨ha, hmeets⟩
    have hrest := ih (h.keeps s a r hI ha hr) hrt hmeets
    have hfirst := h.lowers s a r hI ha hr
    rw [List.length_cons]
    omega

theorem Lowers.exists_rests (h : Lowers m ok I μ) (hI : I s) : ∃ t, m.Steps ok s t ∧ m.Rests ok t := by
  induction hμ : μ s using Nat.strongRecOn generalizing s with
  | ind k ih =>
    by_cases hrest : m.Rests ok s
    . exact ⟨s, Steps.refl s, hrest⟩
    . simp only [Rests, not_forall] at hrest
      rcases hrest with ⟨a, ha, hstep⟩
      rcases Option.ne_none_iff_exists'.mp hstep with ⟨r, hr⟩
      have hlower := h.lowers s a r hI ha hr
      rcases ih (μ r) (hμ ▸ hlower) (h.keeps s a r hI ha hr) rfl with ⟨t, hrt, ht⟩
      exact ⟨t, ((Steps.refl s).tail ha hr).trans hrt, ht⟩

end Machine
