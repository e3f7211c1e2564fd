/-
Locks by who is within them: a lock's holder is the one thread that stands in the part of its code that the lock
guards, and those that share a lock are the threads that stand there.
-/
import Mathlib.Data.List.Nodup
import Mathlib.Logic.Function.Basic

namespace TabnasAbnf.Base

variable {T L : Type} {within : L → Prop} {at_ : T → L} {l m : L} {t u : T}

/-- The holder of a lock is the thread that stands within it. -/
def Held (within : L → Prop) (at_ : T → L) (holder : Option T) : Prop := ∀ t, within (at_ t) ↔ holder = some t

/-- Those that share a lock are the threads that stand within it. -/
def Shared (within : L → Prop) (at_ : T → L) (holders : List T) : Prop :=
  holders.Nodup ∧ ∀ t, t ∈ holders ↔ within (at_ t)

section

variable {holder : Option T}

/-- Two threads within one lock are one. -/
theorem Held.unique (h : Held within at_ holder) (ht : within (at_ t)) (hu : within (at_ u)) : t = u :=
  Option.some.inj (((h t).1 ht).symm.trans ((h u).1 hu))

variable [DecidableEq T]

theorem Held.acquire (h : Held within at_ none) (hl : within l) : Held within (Function.update at_ t l) (some t) := by
  intro u
  by_cases hut : u = t
  · subst hut
    rw [Function.update_self]
    exact iff_of_true hl rfl
  · rw [Function.update_of_ne hut, h u]
    exact iff_of_false (by simp) fun heq => hut (Option.some.inj heq).symm

theorem Held.release (h : Held within at_ holder) (ht : at_ t = m) (hm : within m) (hl : ¬ within l) :
    Held within (Function.update at_ t l) none := by
  subst ht
  intro u
  by_cases hut : u = t
  · subst hut
    rw [Function.update_self]
    exact iff_of_false hl (by simp)
  · rw [Function.update_of_ne hut]
    exact iff_of_false (fun hu => hut (h.unique hu hm)) (by simp)

theorem Held.keep (h : Held within at_ holder) (ht : at_ t = m) (hl : within l ↔ within m) :
    Held within (Function.update at_ t l) holder := by
  subst ht
  intro u
  by_cases hut : u = t
  · subst hut
    rw [Function.update_self, hl]
    exact h u
  · rw [Function.update_of_ne hut]
    exact h u

end

section

variable {holders : List T} [DecidableEq T]

theorem Shared.join (h : Shared within at_ holders) (ht : at_ t = m) (hm : ¬ within m) (hl : within l) :
    Shared within (Function.update at_ t l) (t :: holders) := by
  subst ht
  refine ⟨List.nodup_cons.2 ⟨fun hin => hm ((h.2 t).1 hin), h.1⟩, fun u => ?_⟩
  by_cases hut : u = t
  · subst hut
    rw [Function.update_self]
    exact iff_of_true List.mem_cons_self hl
  · rw [Function.update_of_ne hut, ← h.2 u, List.mem_cons]
    exact or_iff_right hut

theorem Shared.leave (h : Shared within at_ holders) (hl : ¬ within l) :
    Shared within (Function.update at_ t l) (holders.erase t) := by
  refine ⟨h.1.erase t, fun u => ?_⟩
  rw [h.1.mem_erase_iff]
  by_cases hut : u = t
  · subst hut
    rw [Function.update_self]
    exact iff_of_false (fun hin => hin.1 rfl) hl
  · rw [Function.update_of_ne hut, ← h.2 u]
    exact and_iff_right hut

theorem Shared.keep (h : Shared within at_ holders) (ht : at_ t = m) (hl : within l ↔ within m) :
    Shared within (Function.update at_ t l) holders := by
  subst ht
  refine ⟨h.1, fun u => ?_⟩
  by_cases hut : u = t
  · subst hut
    rw [Function.update_self, hl]
    exact h.2 u
  · rw [Function.update_of_ne hut]
    exact h.2 u

end

end TabnasAbnf.Base
