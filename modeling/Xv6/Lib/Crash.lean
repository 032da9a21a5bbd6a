import Mathlib.Data.List.Basic

/-!
# Programs of atomic writes, and crashes

A program that changes durable state is a list of atomic operations, each applied by
`act`.  A crash stops it after any prefix; a recovery program is computed from the
state it starts on, and may itself crash after any prefix and be run again.

## Main definitions

* `Crash.run act ops s` — the state after running `ops` from `s`.
* `Crash.reruns act prog ks s` — `prog` run again and again, the `i`-th run stopped
  after `ks[i]` operations.

## Main results

* `Crash.run_take` — a property that every operation keeps holds after every prefix.
* `Crash.run_take_append_of` — a crash of a sequence of two programs is a crash of the
  first, or a crash of the second after all of the first.
* `Crash.reruns_inv` — a property that every prefix of the recovery keeps holds after
  any number of crashed recoveries.
-/

namespace Crash

variable {σ ω : Type*} (act : ω → σ → σ)

/-- The state after running `ops` from `s`. -/
def run (ops : List ω) (s : σ) : σ := ops.foldl (fun s o => act o s) s

@[simp] theorem run_nil (s : σ) : run act [] s = s := rfl

@[simp] theorem run_cons (o : ω) (ops : List ω) (s : σ) :
    run act (o :: ops) s = run act ops (act o s) := rfl

theorem run_append (ops ops' : List ω) (s : σ) :
    run act (ops ++ ops') s = run act ops' (run act ops s) := by
  simp [run, List.foldl_append]

/-- `prog` run again and again from `s`, the `i`-th run stopped after `ks[i]`
operations. -/
def reruns (prog : σ → List ω) : List ℕ → σ → σ
  | [], s => s
  | k :: ks, s => reruns prog ks (run act ((prog s).take k) s)

variable {act}

/-- **Crashes keep invariants**: a property that every operation of `ops` keeps holds
after every prefix of `ops`. -/
theorem run_take {I : σ → Prop} :
    ∀ (ops : List ω), (∀ o ∈ ops, ∀ s, I s → I (act o s)) → ∀ (k : ℕ) (s : σ), I s →
      I (run act (ops.take k) s)
  | [], _, k, s, hs => by simpa using hs
  | o :: ops, hops, k, s, hs => by
    cases k with
    | zero => simpa using hs
    | succ k =>
      rw [List.take_succ_cons, run_cons]
      exact run_take ops (fun o' ho' => hops o' (List.mem_cons_of_mem _ ho')) k _
        (hops o (List.mem_cons_self ..) s hs)

/-- A property that every operation of `ops` keeps holds after all of `ops`. -/
theorem run_inv {I : σ → Prop} {ops : List ω} (hops : ∀ o ∈ ops, ∀ s, I s → I (act o s))
    {s : σ} (hs : I s) : I (run act ops s) := by
  simpa using run_take ops hops ops.length s hs

/-- A prefix of `ops ++ ops'` runs a prefix of `ops`, or all of `ops` and then a prefix
of `ops'`. -/
theorem run_take_append (ops ops' : List ω) (k : ℕ) (s : σ) :
    run act ((ops ++ ops').take k) s =
      if k ≤ ops.length then run act (ops.take k) s
      else run act (ops'.take (k - ops.length)) (run act ops s) := by
  rw [List.take_append]
  split
  · rw [Nat.sub_eq_zero_of_le ‹_›, List.take_zero, List.append_nil]
  · rw [List.take_of_length_le (by omega), run_append]

/-- **Crashes of a sequence**: a property that holds after every prefix of `ops`, and
after every prefix of `ops'` run after all of `ops`, holds after every prefix of
`ops ++ ops'`. -/
theorem run_take_append_of {I : σ → Prop} {ops ops' : List ω} {s : σ}
    (h : ∀ k, I (run act (ops.take k) s)) (h' : ∀ k, I (run act (ops'.take k) (run act ops s))) :
    ∀ k, I (run act ((ops ++ ops').take k) s) := by
  intro k
  rw [run_take_append]
  split
  · exact h k
  · exact h' _

/-- A crash of one operation leaves the state before it or after it. -/
theorem run_take_singleton_of {I : σ → Prop} {o : ω} {s : σ} (h₀ : I s) (h₁ : I (act o s)) :
    ∀ k, I (run act ([o].take k) s)
  | 0 => h₀
  | _ + 1 => by simpa using h₁

/-- **Recovery keeps invariants across crashes**: a property that every prefix of the
recovery keeps, from every state it holds on, holds after any number of crashed
recoveries. -/
theorem reruns_inv {I : σ → Prop} {prog : σ → List ω}
    (h : ∀ s, I s → ∀ k, I (run act ((prog s).take k) s)) :
    ∀ (ks : List ℕ) (s : σ), I s → I (reruns act prog ks s)
  | [], _, hs => hs
  | k :: ks, s, hs => reruns_inv h ks _ (h s hs k)

end Crash
