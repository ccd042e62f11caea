import Mathlib.Data.List.Induction

/-!
# Executions of machines and trails of transition relations

A machine answers every input with an output and a next state; running it on a
list of inputs yields a final state and a trace of answered inputs.  Trails
are finite executions of a labelled transition relation.  The rules here are
the induction principles the concrete systems use: a property kept by every
step holds after every run, a property of state and history is proved by
extending the history at its end, a machine each of whose steps another one
matches is matched in every run, and a machine whose steps project to trails of
a relation has only runs that project to trails.
-/

namespace Support

/-- A deterministic machine with inputs `ι` and outputs `ω`. -/
structure Machine (σ ι ω : Type*) where
  step : σ → ι → σ × ω

namespace Machine

variable {σ ι ω : Type*} (M : Machine σ ι ω)

/-- The state reached from `s` after a list of inputs. -/
def run (s : σ) : List ι → σ
  | [] => s
  | i :: is => run (M.step s i).1 is

/-- The answered inputs of a run, oldest first. -/
def trace (s : σ) : List ι → List (ι × ω)
  | [] => []
  | i :: is => (i, (M.step s i).2) :: trace (M.step s i).1 is

@[simp] theorem run_nil (s : σ) : M.run s [] = s := rfl

@[simp] theorem trace_nil (s : σ) : M.trace s [] = [] := rfl

@[simp] theorem run_cons (s : σ) (i : ι) (is : List ι) :
    M.run s (i :: is) = M.run (M.step s i).1 is := rfl

@[simp] theorem trace_cons (s : σ) (i : ι) (is : List ι) :
    M.trace s (i :: is) =
      (i, (M.step s i).2) :: M.trace (M.step s i).1 is := rfl

theorem run_append (s : σ) (is js : List ι) :
    M.run s (is ++ js) = M.run (M.run s is) js := by
  induction is generalizing s with
  | nil => rfl
  | cons i is ih => exact ih (M.step s i).1

theorem trace_append (s : σ) (is js : List ι) :
    M.trace s (is ++ js) = M.trace s is ++ M.trace (M.run s is) js := by
  induction is generalizing s with
  | nil => rfl
  | cons i is ih =>
      simp only [List.cons_append, trace_cons, run_cons]
      rw [ih]

theorem map_fst_trace (s : σ) (is : List ι) :
    (M.trace s is).map Prod.fst = is := by
  induction is generalizing s with
  | nil => rfl
  | cons i is ih => simp [ih]

@[simp] theorem length_trace (s : σ) (is : List ι) :
    (M.trace s is).length = is.length := by
  rw [← List.length_map, map_fst_trace]

/-- An answered input was answered after some part of the run. -/
theorem exists_of_mem_trace {s : σ} {is : List ι} {x : ι × ω}
    (h : x ∈ M.trace s is) :
    ∃ before after, is = before ++ x.1 :: after ∧
      x.2 = (M.step (M.run s before) x.1).2 := by
  induction is generalizing s with
  | nil => cases h
  | cons i is ih =>
      rcases List.mem_cons.mp h with rfl | hrest
      · exact ⟨[], is, rfl, rfl⟩
      · obtain ⟨before, after, rfl, hx⟩ := ih hrest
        exact ⟨i :: before, after, rfl, hx⟩

/-- A property that every step meeting a condition keeps holds after every
run all of whose steps meet the condition. -/
theorem run_invariant_under {P : σ → Prop} {C : σ → ι → Prop} {s : σ}
    (h : P s) (hstep : ∀ s i, P s → C s i → P (M.step s i).1)
    {is : List ι}
    (hcond : ∀ before i after, is = before ++ i :: after →
      C (M.run s before) i) : P (M.run s is) := by
  induction is generalizing s with
  | nil => exact h
  | cons i is ih =>
      rw [run_cons]
      refine ih (hstep s i h (hcond [] i is rfl)) ?_
      rintro before j after rfl
      exact hcond (i :: before) j after rfl

/-- A property of history and state is proved by extending the history at
its end, one answered input at a time. -/
theorem trace_invariant {P : List (ι × ω) → σ → Prop} {s : σ}
    (hnil : P [] s)
    (hstep : ∀ h s i, P h s → P (h ++ [(i, (M.step s i).2)]) (M.step s i).1)
    (is : List ι) : P (M.trace s is) (M.run s is) := by
  induction is using List.reverseRecOn with
  | nil => exact hnil
  | append_singleton is i ih =>
      rw [trace_append, run_append]
      exact hstep _ _ i ih

/-- The machine gets from one state to another; `seen` is what an observer
sees of the answered inputs on the way. -/
def Reaches {β : Type*} (see : ι × ω → List β) (s : σ) (seen : List β)
    (t : σ) : Prop :=
  ∃ is, M.run s is = t ∧ (M.trace s is).flatMap see = seen

theorem Reaches.trans {β : Type*} {see : ι × ω → List β} {s t u : σ}
    {seen later : List β} (h : M.Reaches see s seen t)
    (k : M.Reaches see t later u) : M.Reaches see s (seen ++ later) u := by
  obtain ⟨is, rfl, rfl⟩ := h
  obtain ⟨js, rfl, rfl⟩ := k
  refine ⟨is ++ js, M.run_append s is js, ?_⟩
  rw [trace_append, List.flatMap_append]

/-- Forward simulation: if every step of a machine is matched by a run of
another one that looks the same, so is every run. -/
theorem simulation {τ κ υ β : Type*} (N : Machine τ κ υ)
    (see : ι × ω → List β) (see' : κ × υ → List β) {R : σ → τ → Prop}
    (hstep : ∀ s t i, R s t → ∃ t',
      N.Reaches see' t (see (i, (M.step s i).2)) t' ∧ R (M.step s i).1 t')
    {s : σ} {t : τ} (h : R s t) (is : List ι) :
    ∃ t', N.Reaches see' t ((M.trace s is).flatMap see) t' ∧
      R (M.run s is) t' := by
  induction is generalizing s t with
  | nil => exact ⟨t, ⟨[], rfl, rfl⟩, h⟩
  | cons i is ih =>
      obtain ⟨u, hu, hrel⟩ := hstep s t i h
      obtain ⟨t', ht', hrun⟩ := ih hrel
      rw [trace_cons, List.flatMap_cons, run_cons]
      exact ⟨t', hu.trans N ht', hrun⟩

end Machine

/-- A finite execution of a labelled transition relation, extended at its
end. -/
inductive Trail {τ ℓ : Type*} (R : τ → ℓ → τ → Prop) (a : τ) :
    List ℓ → τ → Prop
  | nil : Trail R a [] a
  | snoc {ls : List ℓ} {b c : τ} {l : ℓ} :
      Trail R a ls b → R b l c → Trail R a (ls ++ [l]) c

namespace Trail

variable {τ ℓ : Type*} {R : τ → ℓ → τ → Prop} {a b c : τ}

theorem single {l : ℓ} (h : R a l b) : Trail R a [l] b := by
  simpa using Trail.snoc Trail.nil h

theorem append {ls ms : List ℓ} (h : Trail R a ls b) (k : Trail R b ms c) :
    Trail R a (ls ++ ms) c := by
  induction k with
  | nil => simpa using h
  | snoc _ hstep ih =>
      rw [← List.append_assoc]
      exact ih.snoc hstep

theorem eq_of_nil (h : Trail R a [] b) : a = b := by
  generalize hls : ([] : List ℓ) = ls at h
  cases h with
  | nil => rfl
  | snoc _ _ => simp at hls

theorem snoc_inv {ls : List ℓ} {l : ℓ} (h : Trail R a (ls ++ [l]) c) :
    ∃ b, Trail R a ls b ∧ R b l c := by
  generalize hms : ls ++ [l] = ms at h
  cases h with
  | nil => simp at hms
  | snoc hpath hstep =>
      obtain ⟨rfl, rfl⟩ := List.append_singleton_inj.mp hms
      exact ⟨_, hpath, hstep⟩

/-- Every way of cutting the labels cuts the trail. -/
theorem split {ls ms : List ℓ} (h : Trail R a (ls ++ ms) c) :
    ∃ b, Trail R a ls b ∧ Trail R b ms c := by
  induction ms using List.reverseRecOn generalizing c with
  | nil => exact ⟨c, by simpa using h, Trail.nil⟩
  | append_singleton ms l ih =>
      rw [← List.append_assoc] at h
      obtain ⟨d, hd, hlast⟩ := h.snoc_inv
      obtain ⟨b, hb, hbd⟩ := ih hd
      exact ⟨b, hb, hbd.snoc hlast⟩

theorem cons_inv {l : ℓ} {ls : List ℓ} (h : Trail R a (l :: ls) c) :
    ∃ b, R a l b ∧ Trail R b ls c := by
  have hcut : Trail R a ([l] ++ ls) c := h
  obtain ⟨b, hb, hrest⟩ := hcut.split
  have hlast : Trail R a ([] ++ [l]) b := hb
  obtain ⟨d, hd, hstep⟩ := hlast.snoc_inv
  rw [← hd.eq_of_nil] at hstep
  exact ⟨b, hstep, hrest⟩

/-- A property of history and state that every transition keeps holds along
every trail. -/
theorem invariant {P : List ℓ → τ → Prop} (hnil : P [] a)
    (hstep : ∀ ls b l c, P ls b → R b l c → P (ls ++ [l]) c)
    {ls : List ℓ} (h : Trail R a ls b) : P ls b := by
  induction h with
  | nil => exact hnil
  | snoc _ hR ih => exact hstep _ _ _ _ ih hR

end Trail

/-- If every step of a machine projects to a trail labelled by its answer,
every run projects to the trail labelled by its trace. -/
theorem Machine.trail_of_step {σ ι ω τ ℓ : Type*} (M : Machine σ ι ω)
    {R : τ → ℓ → τ → Prop} (proj : σ → τ) (labels : ι × ω → List ℓ)
    (hstep : ∀ s i,
      Trail R (proj s) (labels (i, (M.step s i).2)) (proj (M.step s i).1))
    (s : σ) (is : List ι) :
    Trail R (proj s) ((M.trace s is).flatMap labels) (proj (M.run s is)) := by
  induction is generalizing s with
  | nil => exact Trail.nil
  | cons i is ih =>
      rw [trace_cons, List.flatMap_cons, run_cons]
      exact (hstep s i).append (ih (M.step s i).1)

end Support
