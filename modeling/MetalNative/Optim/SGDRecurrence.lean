import MetalNative.Optim.Turns

namespace MetalNative

open List SGDHyper

/-!
# SGD, parameter by parameter

With real arithmetic the value of a parameter follows a recurrence.  In `torch.optim.SGD` the first
gradient becomes the momentum buffer as it is; here a buffer of zeros is there before it, so that
the first gradient is dampened as the later ones are.

* `SGDHyper.recur` — one step of either recurrence on one entry, by what becomes of the first
  gradient; `SGDHyper.torch` — the one of PyTorch.
* `Optimizer.runUntil`, `received` — a run up to any turn of any step, and the gradients that a
  parameter has received there.
* `runUntil_shows` — what the code computes, at each of these.
* `SGDHyper.FirstUndamped` — the first gradient counts in full, or not at all;
  `sgd_follows_torch_iff` says that it is exactly there that the two recurrences agree.
-/

/-! ### The recurrences -/

/-- An entry of a parameter, with that of its momentum buffer. -/
structure SGDEntry where
  value : ℝ
  buf : Option ℝ := none

namespace SGDHyper

/-- One step of the recurrence; `first` makes the buffer from the first gradient. -/
noncomputable def recur (h : SGDHyper ℝ) (first : ℝ → ℝ) (s : SGDEntry) (g : ℝ) : SGDEntry :=
  let grad := g + h.weight_decay * s.value
  if h.momentum = 0 then { s with value := s.value - h.lr * grad }
  else
    let buf := s.buf.elim (first grad) fun b => h.momentum * b + (1 - h.dampening) * grad
    let grad := if h.nesterov then grad + h.momentum * buf else buf
    { value := s.value - h.lr * grad, buf := some buf }

/-- The recurrence with a list of gradients. -/
noncomputable def follow (h : SGDHyper ℝ) (first : ℝ → ℝ) (s : SGDEntry) (gs : List ℝ) : SGDEntry :=
  gs.foldl (h.recur first) s

/-- The value of an entry after `torch.optim.SGD` has been given these gradients. -/
noncomputable def torch (h : SGDHyper ℝ) (x : ℝ) (gs : List ℝ) : ℝ :=
  (h.follow id { value := x } gs).value

/-- The value of an entry where the buffer begins as zero. -/
noncomputable def fromZero (h : SGDHyper ℝ) (x : ℝ) (gs : List ℝ) : ℝ :=
  (h.follow (fun grad => (1 - h.dampening) * grad) { value := x } gs).value

/-- The first gradient, with the weight decay, counts in full or not at all. -/
def FirstUndamped (h : SGDHyper ℝ) (x : ℝ) (gs : List ℝ) : Prop :=
  h.momentum = 0 ∨ h.dampening = 0 ∨ h.lr = 0 ∨ ∀ g ∈ gs.head?, g + h.weight_decay * x = 0

/-- What `__init__` checks of `nesterov`. -/
def NesterovChecked (h : SGDHyper ℝ) : Prop :=
  h.nesterov = true → h.dampening = 0

end SGDHyper

/-! ### Runs up to a turn -/

section RunUntil

variable {F A : Type*}

/-- The heap after `k` steps and the first `j` turns of the next one. -/
def Optimizer.runUntil (np : ArrayOps F A) (opt : Optimizer F) (w : PyHeap A)
    (gs : List (ParamId → Option A)) (k j : ℕ) : Option (PyHeap A) :=
  (opt.run np w (gs.take k)).bind fun (w, opt) =>
    gs[k]?.elim (some w) fun grads =>
      (opt.params.take j).foldlM (opt.count.stepParam np) { w with grad := grads }

/-- The gradients that `p` receives in a step, one for each time that it is listed. -/
def stepGradients (params : List ParamId) (p : ParamId) (grads : ParamId → Option A) : List A :=
  (grads p).elim [] (List.replicate (params.count p))

/-- The gradients that `p` has received there. -/
def received (params : List ParamId) (p : ParamId) (gs : List (ParamId → Option A)) (k j : ℕ) :
    List A :=
  (gs.take k).flatMap (stepGradients params p) ++
    gs[k]?.elim [] (stepGradients (params.take j) p)

theorem map_fst_stepTurns (params : List ParamId) (p : ParamId) (count : ℕ)
    (grads : ParamId → Option A) :
    (stepTurns params p count grads).map Prod.fst = stepGradients params p grads := by
  unfold stepTurns stepGradients
  cases grads p with
  | none => rfl
  | some g => simp

/-- A list of parameters reaches each number of turns of `p`. -/
theorem exists_count_take (params : List ParamId) (p : ParamId) {m : ℕ}
    (hm : m ≤ params.count p) : ∃ j, (params.take j).count p = m := by
  induction params generalizing m with
  | nil => exact ⟨0, (Nat.le_zero.mp hm).symm⟩
  | cons q rest ih =>
    by_cases hzero : m = 0
    · exact ⟨0, by simp [hzero]⟩
    -- the first parameter has its turn, the rest reach what is left
    rw [count_cons] at hm
    obtain ⟨j, hj⟩ := ih (m := m - if (q == p) = true then 1 else 0) (by omega)
    refine ⟨j + 1, ?_⟩
    rw [take_succ_cons, count_cons, hj]
    split_ifs <;> omega

/-- What has been received is a first part of all gradients. -/
theorem received_initial (params : List ParamId) (p : ParamId) (gs : List (ParamId → Option A))
    (k j : ℕ) : received params p gs k j <+: gs.flatMap (stepGradients params p) := by
  have hsplit : gs.flatMap (stepGradients params p)
      = (gs.take k).flatMap (stepGradients params p)
        ++ (gs.drop k).flatMap (stepGradients params p) := by
    rw [← flatMap_append, take_append_drop]
  rw [hsplit]
  apply (prefix_append_right_inj _).mpr
  cases hk : gs[k]? with
  | none => exact nil_prefix
  | some grads =>
    obtain ⟨hlt, rfl⟩ := List.getElem?_eq_some_iff.mp hk
    rw [drop_eq_getElem_cons hlt, flatMap_cons]
    refine IsPrefix.trans ?_ (prefix_append ..)
    show stepGradients (params.take j) p gs[k] <+: stepGradients params p gs[k]
    unfold stepGradients
    cases gs[k] p with
    | none => exact nil_prefix
    | some g =>
      have hcount : (params.take j).count p ≤ params.count p :=
        (take_sublist j params).count_le p
      rw [← Nat.add_sub_cancel' hcount]
      show replicate _ g <+: replicate _ g
      rw [← replicate_append_replicate]
      exact prefix_append ..

/-- And each first part is received at some turn. -/
theorem exists_received (params : List ParamId) (p : ParamId) (gs : List (ParamId → Option A))
    (m : ℕ) : ∃ k j, received params p gs k j = (gs.flatMap (stepGradients params p)).take m := by
  induction gs generalizing m with
  | nil => exact ⟨0, 0, by simp [received]⟩
  | cons grads rest ih =>
    by_cases hm : m ≤ (stepGradients params p grads).length
    · -- within the first step
      unfold received
      cases hg : grads p with
      | none =>
        refine ⟨0, 0, ?_⟩
        have hzero : m = 0 := by simpa [stepGradients, hg] using hm
        simp [stepGradients, hg, hzero]
      | some g =>
        have hle : m ≤ params.count p := by simpa [stepGradients, hg] using hm
        obtain ⟨j, hj⟩ := exists_count_take params p hle
        refine ⟨0, j, ?_⟩
        rw [flatMap_cons, take_append_of_le_length hm]
        simp [stepGradients, hg, hj, hle]
    · obtain ⟨k, j, hkj⟩ := ih (m - (stepGradients params p grads).length)
      refine ⟨k + 1, j, ?_⟩
      rw [flatMap_cons, take_append, take_of_length_le (by omega), ← hkj]
      simp [received]

end RunUntil

/-! ### Where the recurrences agree -/

section Agree

variable {h : SGDHyper ℝ} {f f' : ℝ → ℝ}

namespace SGDHyper

/-- Once there is a buffer, what became of the first gradient no longer matters. -/
theorem recur_of_buf (s : SGDEntry) {b : ℝ} (hb : s.buf = some b) (g : ℝ) :
    h.recur f s g = h.recur f' s g := by
  unfold recur
  simp only [hb, Option.elim_some]

/-- A buffer stays. -/
theorem buf_recur (s : SGDEntry) {b : ℝ} (hb : s.buf = some b) (g : ℝ) :
    ∃ b', (h.recur f s g).buf = some b' := by
  unfold recur
  by_cases hm : h.momentum = 0
  · simp [hm, hb]
  · simp [hm]

theorem follow_of_buf (gs : List ℝ) (s : SGDEntry) {b : ℝ} (hb : s.buf = some b) :
    h.follow f s gs = h.follow f' s gs := by
  induction gs generalizing s b with
  | nil => rfl
  | cons g rest ih =>
    obtain ⟨b', hb'⟩ := buf_recur (h := h) (f := f) s hb g
    show h.follow f (h.recur f s g) rest = h.follow f' (h.recur f' s g) rest
    rw [ih _ hb', recur_of_buf s hb g]

/-- Without momentum no buffer is ever made. -/
theorem recur_of_momentum (hm : h.momentum = 0) : h.recur f = h.recur f' := by
  ext s g
  all_goals simp [recur, hm]

/-- With a learning rate of zero nothing moves. -/
theorem value_follow_of_lr (hlr : h.lr = 0) (gs : List ℝ) (s : SGDEntry) :
    (h.follow f s gs).value = s.value := by
  induction gs generalizing s with
  | nil => rfl
  | cons g rest ih =>
    have hrecur : (h.recur f s g).value = s.value := by
      unfold recur
      split_ifs <;> simp [hlr]
    show (h.follow f (h.recur f s g) rest).value = _
    rw [ih, hrecur]

/-- The first update, with momentum but without Nesterov's. -/
theorem value_recur_first (hm : h.momentum ≠ 0) (hn : h.nesterov = false) (x g : ℝ) :
    (h.recur f { value := x } g).value = x - h.lr * f (g + h.weight_decay * x) := by
  unfold recur
  simp [hm, hn]

/-- With momentum the first update makes a buffer. -/
theorem recur_first (hm : h.momentum ≠ 0) (x g : ℝ)
    (hf : f (g + h.weight_decay * x) = f' (g + h.weight_decay * x)) :
    h.recur f { value := x } g = h.recur f' { value := x } g ∧
      ∃ b, (h.recur f { value := x } g).buf = some b := by
  unfold recur
  simp [hm, hf]

/-- **The two recurrences agree**, after each of the gradients, exactly where the first one counts
    in full or not at all. -/
theorem fromZero_eq_torch_iff (hn : h.NesterovChecked) (x : ℝ) (gs : List ℝ) :
    (∀ k, h.fromZero x (gs.take k) = h.torch x (gs.take k)) ↔ h.FirstUndamped x gs := by
  constructor
  · intro hagree
    unfold FirstUndamped
    by_contra hnot
    push Not at hnot
    obtain ⟨hm, hd, hlr, g, hg, hne⟩ := hnot
    -- the values differ as soon as the first gradient has been used
    have hnesterov : h.nesterov = false := by
      rw [← Bool.not_eq_true]
      exact fun hnest => hd (hn hnest)
    obtain ⟨rest, rfl⟩ := head?_eq_some_iff.mp hg
    have hone := hagree 1
    have hdamped : h.fromZero x [g] = x - h.lr * ((1 - h.dampening) * (g + h.weight_decay * x)) :=
      value_recur_first hm hnesterov x g
    have hfull : h.torch x [g] = x - h.lr * (g + h.weight_decay * x) :=
      value_recur_first hm hnesterov x g
    rw [take_succ_cons, take_zero, hdamped, hfull] at hone
    have hzero : h.lr * h.dampening * (g + h.weight_decay * x) = 0 := by linarith
    exact mul_ne_zero (mul_ne_zero hlr hd) hne hzero
  · intro hfirst k
    unfold fromZero torch
    by_cases hm : h.momentum = 0
    · unfold follow
      rw [recur_of_momentum hm]
    obtain hm' | hd | hlr | hhead := hfirst
    · exact absurd hm' hm
    · -- undampened, a buffer of zeros and no buffer are the same
      have hid : (fun grad : ℝ => (1 - h.dampening) * grad) = id := by
        ext grad
        simp [hd]
      rw [hid]
    · rw [value_follow_of_lr hlr, value_follow_of_lr hlr]
    · cases hgs : gs.take k with
      | nil => rfl
      | cons g rest =>
        have hmem : g ∈ gs.head? := by
          have hk : k ≠ 0 := by
            rintro rfl
            cases hgs
          have htake : (gs.take k).head? = some g := by rw [hgs, head?_cons]
          rwa [head?_take, if_neg hk] at htake
        have hfirst : (fun grad : ℝ => (1 - h.dampening) * grad) (g + h.weight_decay * x)
            = id (g + h.weight_decay * x) := by simp [hhead g hmem]
        obtain ⟨heq, b, hb⟩ := recur_first hm x g hfirst
        show (h.follow _ (h.recur _ _ g) rest).value = (h.follow id (h.recur id _ g) rest).value
        rw [← heq, follow_of_buf rest _ hb]

end SGDHyper

end Agree

/-! ### What the code computes -/

section Run

variable {ι : Type} {format : ℝ → String} {h : SGDHyper ℝ}

/-- An entry of `state` and the value of a parameter are those of the recurrence, entry by entry. -/
structure ShowsBuffer (entry : Option (ParamState (ι → ℝ))) (value : ι → ℝ) (s : ι → SGDEntry) :
    Prop where
  value : ∀ i, value i = (s i).value
  buf : (entry = none ∧ ∀ i, (s i).buf = none) ∨
    ∃ b, entry = some (.momentum_buffer b) ∧ ∀ i, (s i).buf = some (b i)

/-- The recurrence that the code follows, entry by entry. -/
noncomputable def SGDHyper.entries (h : SGDHyper ℝ) (_t : ℕ) (s : ι → SGDEntry) (g : ι → ℝ) :
    ι → SGDEntry :=
  fun i => h.recur (fun grad => (1 - h.dampening) * grad) (s i) (g i)

variable (format) in
/-- A turn is one step of the recurrence: the buffer of zeros only dampens the first gradient. -/
theorem sgd_update_shows (t : ℕ) {entry : Option (ParamState (ι → ℝ))} {x : ι → ℝ}
    {s : ι → SGDEntry} (hs : ShowsBuffer entry x s) (g : ι → ℝ) :
    ∃ entry' y, (UpdateRule.sgd h).update (realOps ι format) t entry x g = some (entry', y) ∧
      ShowsBuffer entry' y (h.entries t s g) := by
  have hgrad : (if (realOps ι format).eq h.weight_decay (realOps ι format).zero then g
      else (realOps ι format).add g ((realOps ι format).scale h.weight_decay x))
      = fun i => g i + h.weight_decay * (s i).value := by
    ext i
    by_cases hwd : h.weight_decay = 0
    · simp [realOps, hwd]
    · simp [realOps, hwd, hs.value i]
  show ∃ entry' y, h.update (realOps ι format) entry x g = some (entry', y) ∧ _
  unfold update
  rw [hgrad]
  by_cases hm : h.momentum = 0
  · have heq : (realOps ι format).eq h.momentum (realOps ι format).zero = true := by
      simp [realOps, hm]
    refine ⟨_, _, by rw [if_pos heq], ?_, ?_⟩
    · intro i
      simp [entries, recur, hm, realOps, hs.value i]
    · simpa [entries, recur, hm] using hs.buf
  · have heq : ¬ (realOps ι format).eq h.momentum (realOps ι format).zero = true := by
      simp [realOps, hm]
    obtain ⟨hentry, hnone⟩ | ⟨b, hentry, hsome⟩ := hs.buf
    · subst hentry
      refine ⟨_, _, by rw [if_neg heq]; rfl, ?_, .inr ⟨_, rfl, ?_⟩⟩
      · intro i
        cases hn : h.nesterov <;>
          simp [entries, recur, hm, realOps, hs.value i, hnone i, hn]
      · intro i
        simp [entries, recur, hm, realOps, hnone i]
    · subst hentry
      refine ⟨_, _, by rw [if_neg heq]; rfl, ?_, .inr ⟨_, rfl, ?_⟩⟩
      · intro i
        cases hn : h.nesterov <;>
          simp [entries, recur, hm, realOps, hs.value i, hsome i, hn]
      · intro i
        simp [entries, recur, hm, realOps, hsome i]

variable {params : List ParamId} {opt : Optimizer ℝ}

theorem count_of_sgd (hrule : opt.rule = .sgd h) : opt.count = opt := by
  unfold Optimizer.count
  rw [hrule]

variable (format) in
theorem sgd_follows (hrule : opt.rule = .sgd h) :
    opt.Follows (realOps ι format) ShowsBuffer h.entries := by
  intro entry x s g hshows
  rw [hrule]
  exact sgd_update_shows format opt.step_count hshows g

/-- What the code makes of a parameter with these gradients. -/
noncomputable def SGDHyper.after (h : SGDHyper ℝ) (s : ι → SGDEntry) (gs : List (ι → ℝ)) :
    ι → SGDEntry :=
  fun i => h.follow (fun grad => (1 - h.dampening) * grad) (s i) (gs.map (· i))

theorem SGDHyper.after_append (h : SGDHyper ℝ) (s : ι → SGDEntry) (gs hs : List (ι → ℝ)) :
    h.after s (gs ++ hs) = h.after (h.after s gs) hs := by
  ext i : 1
  simp [after, follow]

/-- The entries of a parameter follow the recurrence one by one. -/
theorem SGDHyper.followTurns_entries (h : SGDHyper ℝ) (s : ι → SGDEntry)
    (gs : List ((ι → ℝ) × ℕ)) :
    followTurns h.entries s gs = h.after s (gs.map Prod.fst) := by
  induction gs generalizing s with
  | nil => rfl
  | cons gt rest ih => exact ih _

variable {s : ParamId → ι → SGDEntry} {w : PyHeap (ι → ℝ)}

variable (format params) in
/-- The turns of a step. -/
theorem sgd_foldlM_shows (hrule : opt.rule = .sgd h)
   
    (hs : ∀ p, ShowsBuffer (w.dict opt.state p) (w.value p) (s p)) :
    ∃ w', params.foldlM (opt.stepParam (realOps ι format)) w = some w' ∧
      ∀ p, ShowsBuffer (w'.dict opt.state p) (w'.value p)
        (h.after (s p) (stepGradients params p w.grad)) := by
  obtain ⟨w', hfold, hshows⟩ := (sgd_follows format hrule).foldlM params hs
  refine ⟨w', hfold, fun p => ?_⟩
  rw [← map_fst_stepTurns params p opt.step_count, ← h.followTurns_entries]
  exact hshows p

variable (format) in
/-- No step fails, and each parameter goes through its turns. -/
theorem sgd_run_shows (hrule : opt.rule = .sgd h)
   
    (hs : ∀ p, ShowsBuffer (w.dict opt.state p) (w.value p) (s p))
    (gs : List (ParamId → Option (ι → ℝ))) :
    ∃ w', opt.run (realOps ι format) w gs = some (w', opt) ∧
      ∀ p, ShowsBuffer (w'.dict opt.state p) (w'.value p)
        (h.after (s p) (gs.flatMap (stepGradients opt.params p))) := by
  induction gs generalizing w s with
  | nil => exact ⟨w, rfl, hs⟩
  | cons grads rest ih =>
    have hs' : ∀ p, ShowsBuffer ({ w with grad := grads }.dict opt.state p)
        ({ w with grad := grads }.value p) (s p) := hs
    obtain ⟨u, hu, hshows⟩ := sgd_foldlM_shows format opt.params hrule hs'
    obtain ⟨w', hrun, hvalue⟩ := ih hshows
    refine ⟨w', ?_, ?_⟩
    · rw [Optimizer.run, step_eq, count_of_sgd hrule, hu]
      exact hrun
    · intro p
      rw [flatMap_cons, h.after_append]
      exact hvalue p

variable (format) in
/-- **At each turn of a run** a parameter is what the gradients so far have made of it. -/
theorem runUntil_shows (hrule : opt.rule = .sgd h)
   
    (hs : ∀ p, ShowsBuffer (w.dict opt.state p) (w.value p) (s p))
    (gs : List (ParamId → Option (ι → ℝ))) (k j : ℕ) :
    ∃ w', opt.runUntil (realOps ι format) w gs k j = some w' ∧
      ∀ p, ShowsBuffer (w'.dict opt.state p) (w'.value p)
        (h.after (s p) (received opt.params p gs k j)) := by
  obtain ⟨u, hrun, hu⟩ := sgd_run_shows format hrule hs (gs.take k)
  unfold Optimizer.runUntil received
  rw [hrun]
  cases hk : gs[k]? with
  | none =>
    refine ⟨u, rfl, fun p => ?_⟩
    simpa using hu p
  | some grads =>
    have hu' : ∀ p, ShowsBuffer ({ u with grad := grads }.dict opt.state p)
        ({ u with grad := grads }.value p)
        (h.after (s p) ((gs.take k).flatMap (stepGradients opt.params p))) := hu
    obtain ⟨w', hfold, hshows⟩ := sgd_foldlM_shows format (opt.params.take j) hrule hu'
    refine ⟨w', ?_, ?_⟩
    · simpa [count_of_sgd hrule] using hfold
    · intro p
      rw [h.after_append]
      exact hshows p

/-- A new optimizer: each parameter is at the start of its recurrence. -/
theorem sgd_init_shows {w₀ w : PyHeap (ι → ℝ)}
    (hinit : Optimizer.init (realOps ι format) (.sgd h) params w₀ = .ok (w, opt)) :
    h.NesterovChecked ∧ opt.rule = .sgd h ∧ opt.params = params ∧
      ∀ p, ShowsBuffer (w.dict opt.state p) (w.value p) fun i => { value := w₀.value p i } := by
  obtain ⟨hcheck, hvalue, hrule, hparams, hdict⟩ := init_ok hinit
  refine ⟨?_, hrule, hparams, ?_⟩
  · intro hnesterov
    by_contra hd
    have hthrow : h.check (realOps ι format) ≠ .ok () := by
      have heq : (realOps ι format).eq h.dampening (realOps ι format).zero = false := by
        simp [realOps, hd]
      unfold check
      rw [hnesterov, heq]
      simp only [Bool.not_false, Bool.or_true, Bool.and_true, if_true]
      split_ifs <;> nofun
    exact hthrow hcheck
  · intro p
    rw [hdict, hvalue]
    exact ⟨fun _ => rfl, .inl ⟨rfl, fun _ => rfl⟩⟩

end Run

/-- **SGD.**  At every turn of every run a parameter is where `torch.optim.SGD` would have it with
    the gradients so far, exactly where the first of them counts in full or not at all, in each
    entry. -/
theorem sgd_follows_torch_iff {ι : Type} {format : ℝ → String} {h : SGDHyper ℝ}
    {params : List ParamId} {w₀ w : PyHeap (ι → ℝ)} {opt : Optimizer ℝ}
    (hinit : Optimizer.init (realOps ι format) (.sgd h) params w₀ = .ok (w, opt))
    (gs : List (ParamId → Option (ι → ℝ))) (p : ParamId) :
    (∀ k j, ∃ w', opt.runUntil (realOps ι format) w gs k j = some w' ∧
      ∀ i, w'.value p i = h.torch (w₀.value p i) ((received params p gs k j).map (· i))) ↔
    ∀ i, h.FirstUndamped (w₀.value p i) ((gs.flatMap (stepGradients params p)).map (· i)) := by
  obtain ⟨hn, hrule, rfl, hs⟩ := sgd_init_shows hinit
  have hcode : ∀ k j, ∃ w', opt.runUntil (realOps ι format) w gs k j = some w' ∧
      ∀ i, w'.value p i
        = h.fromZero (w₀.value p i) ((received opt.params p gs k j).map (· i)) := by
    intro k j
    obtain ⟨w', hrun, hshows⟩ := runUntil_shows format hrule hs gs k j
    exact ⟨w', hrun, (hshows p).value⟩
  constructor
  · intro htorch i
    rw [← fromZero_eq_torch_iff hn]
    intro m
    obtain ⟨k, j, hkj⟩ := exists_received opt.params p gs m
    obtain ⟨w', hrun, hvalue⟩ := hcode k j
    obtain ⟨w'', hrun', hvalue'⟩ := htorch k j
    obtain rfl := Option.some.inj (hrun.symm.trans hrun')
    rw [← map_take, ← hkj, ← hvalue i, hvalue' i]
  · intro hfirst k j
    obtain ⟨w', hrun, hvalue⟩ := hcode k j
    refine ⟨w', hrun, fun i => ?_⟩
    have hagree := (fromZero_eq_torch_iff hn _ _).mpr (hfirst i)
      (received opt.params p gs k j).length
    have hprefix := prefix_iff_eq_take.mp (received_initial opt.params p gs k j)
    rw [← map_take, ← hprefix] at hagree
    rw [hvalue i, hagree]

/-- Momentum, half of it dampened. -/
noncomputable def dampedSGD : SGDHyper ℝ := ⟨1, 1, 1 / (1 + 1), 0, false⟩

theorem init_sgd (h : SGDHyper ℝ) (hlr : 0 ≤ h.lr) (hm : 0 ≤ h.momentum) (hw : 0 ≤ h.weight_decay)
    (hn : h.nesterov = false) (params : List ParamId) (w₀ : PyHeap (Unit → ℝ)) : ∃ w opt,
    Optimizer.init (realOps Unit fun _ => "") (.sgd h) params w₀ = .ok (w, opt) := by
  apply exists_init
  show h.check (realOps Unit fun _ => "") = .ok ()
  have hnonneg : ∀ x : ℝ, 0 ≤ x →
      (realOps Unit fun _ => "").lt x (realOps Unit fun _ => "").zero = false := by
    intro x hx
    simp [realOps, hx]
  unfold check
  rw [hn, hnonneg _ hlr, hnonneg _ hm, hnonneg _ hw]
  rfl

theorem sgd_follows_torch_undampened : ∃ w opt w',
    Optimizer.init (realOps Unit fun _ => "") (.sgd ⟨1, 1, 0, 0, false⟩) [0]
      { value := fun _ _ => 0 }
      = .ok (w, opt) ∧
    opt.runUntil (realOps Unit fun _ => "") w [fun _ => some fun _ => 1] 1 0 = some w' ∧
    w'.value 0 () = SGDHyper.torch ⟨1, 1, 0, 0, false⟩ 0 [1] := by
  obtain ⟨w, opt, hinit⟩ := init_sgd ⟨1, 1, 0, 0, false⟩ one_pos.le one_pos.le le_rfl rfl [0]
    { value := fun _ _ => 0 }
  obtain ⟨w', hrun, hvalue⟩ :=
    (sgd_follows_torch_iff hinit [fun _ => some fun _ => 1] 0).mpr (fun _ => .inr (.inl rfl)) 1 0
  exact ⟨w, opt, w', hinit, hrun, hvalue ()⟩

/-- One gradient: the parameter moves by half of it. -/
theorem sgd_dampens_first_gradient : ∃ w opt w',
    Optimizer.init (realOps Unit fun _ => "") (.sgd dampedSGD) [0] { value := fun _ _ => 0 }
      = .ok (w, opt) ∧
    opt.run (realOps Unit fun _ => "") w [fun _ => some fun _ => 1] = some (w', opt) ∧
    w'.value 0 () ≠ dampedSGD.torch 0 [1] := by
  obtain ⟨w, opt, hinit⟩ := init_sgd dampedSGD one_pos.le one_pos.le le_rfl rfl [0]
    { value := fun _ _ => 0 }
  obtain ⟨hn, hrule, hparams, hs⟩ := sgd_init_shows hinit
  obtain ⟨w', hrun, hshows⟩ := sgd_run_shows (fun _ => "") hrule hs [fun _ => some fun _ => 1]
  refine ⟨w, opt, w', hinit, hrun, ?_⟩
  have hvalue : w'.value 0 () = dampedSGD.fromZero 0 [1] := by
    rw [hparams] at hshows
    exact (hshows 0).value ()
  have hhalf : dampedSGD.fromZero 0 [1] = -(1 / 2) := by
    norm_num [fromZero, follow, recur, dampedSGD]
  have hfull : dampedSGD.torch 0 [1] = -1 := by
    norm_num [torch, follow, recur, dampedSGD]
  rw [hvalue, hhalf, hfull]
  norm_num

end MetalNative
