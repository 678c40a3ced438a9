import MetalNative.Kernels.JITFusionCodegen

namespace MetalNative

open MslText Option List

/-!
# What a fused kernel stores

The kernel that is read in a source is run.  The accumulator `v` is the only variable of the outer
block, and each operation leaves the fold so far in it.

* `eval_rename_eq` — the expression of a statement has the value of the entry in the table.
* `chainValue_isSome` — every chain has a value.
* `arrayValue_input` — `input0[id]` to the last input are the buffers from 0 on.
* `exec_ops` — the statements of a chain take the accumulator to its fold.
* `generateMsl_denotes` — a source is generated exactly for chains of one to eight operations with
  the inputs that they need, and each of its threads stores the fold.
-/

section Meaning

variable {α : Type} (I : Interp α)

/-! ### The values of the operations -/

/-- The expression of a statement has the value of the entry in the table. -/
theorem eval_rename_eq {dtype : FusedDType} {op : FusedOp} {x : String} (hx : x = "x" ∨ x = "a")
    {e : Expr} (he : opExpr dtype op = some e) (hvars : ∀ w ∈ e.vars, w = x ∨ w = "b")
    (harrays : e.arrays = []) {v b : α} {var : String → Option α}
    (array : String → String → Option α) (hv : var "v" = some v)
    (hb : "b" ∈ e.vars → var "b" = some b) :
    eval I var array (e.rename x "v") = opValue I dtype op v b := by
  have hliteral : isLiteral x = false := by
    obtain rfl | rfl := hx <;> decide
  rw [eval_rename I var array hliteral (by decide), opValue, he, bind_some]
  refine eval_congr I (fun w hw => ?_) (by simp [harrays])
  obtain rfl | rfl := hvars w hw
  · simp [hv, hx]
  · have hne : "b" ≠ x := by
      obtain rfl | rfl := hx <;> decide
    simp [hne, hb hw]

theorem opValue_isSome (dtype : FusedDType) (op : FusedOp) (v b : α) :
    (opValue I dtype op v b).isSome := by
  have hsome : ∀ {e : Expr}, opExpr dtype op = some e → e.arrays = [] →
      (∀ w ∈ e.vars, (w = "x" ∨ w = "a") ∨ w = "b") → (opValue I dtype op v b).isSome := by
    intro e he harrays hvars
    rw [opValue, he, bind_some]
    refine eval_isSome I (fun w hw => ?_) harrays
    obtain hx | rfl := hvars w hw
    · simp [hx]
    · simp
  by_cases hop : isUnaryOp op = true
  · obtain ⟨e, he, hvars, harrays, -⟩ := readPart_unary dtype hop
    exact hsome he harrays fun w hw => .inl (.inl (hvars w hw))
  · obtain ⟨e, he, hvars, harrays, -⟩ := readPart_binary dtype (by simpa using hop)
    exact hsome he harrays fun w hw => (hvars w hw).imp .inr id

/-- Every chain has a value. -/
theorem chainValue_isSome (dtype : FusedDType) (input : ℕ → α) (ops : List FusedOp) (j : ℕ) (v : α) :
    (chainValue I dtype input ops j v).isSome := by
  induction ops generalizing j v with
  | nil => rfl
  | cons op ops ih =>
    by_cases hop : isUnaryOp op = true
    · obtain ⟨y, hy⟩ := isSome_iff_exists.mp (opValue_isSome I dtype op v v)
      simpa [chainValue, hop, hy] using ih j y
    · obtain ⟨y, hy⟩ := isSome_iff_exists.mp (opValue_isSome I dtype op v (input j))
      simpa [chainValue, hop, hy] using ih (j + 1) y

/-! ### The parameters -/

/-- An input is the buffer of its number. -/
theorem arrayValue_input {key : FusionKey} (t : MslText.Thread α) {j : ℕ}
    (h : j < key.num_inputs.toNat) :
    arrayValue key.params t ("input" ++ toString j) "id" = some (t.buffer j t.position) := by
  have hposition : Param.position "id" ∈ key.params := by simp [FusionKey.params]
  unfold arrayValue
  refine findSome?_eq_some_of_unique
    ⟨.input key.dtype.vecType ("input" ++ toString j) j, ?_, by simp [hposition]⟩ ?_
  · simp [FusionKey.params, h]
  · -- the name of an input ends with its number
    intro p hp x hx
    simp only [FusionKey.params, List.mem_append, List.mem_map, List.mem_cons, List.not_mem_nil,
      or_false] at hp
    obtain ⟨i, -, rfl⟩ | rfl | rfl | rfl := hp
    · simp only [ite_none_right_eq_some, some.injEq, String.append_right_inj] at hx
      obtain ⟨⟨hname, -⟩, rfl⟩ := hx
      have hij := congrArg decimal hname
      rw [decimal_toString, decimal_toString] at hij
      rw [hij]
    · simp at hx
    · simp at hx
    · simp at hx

/-- The output is the buffer behind the inputs. -/
theorem outputBuffer_output (key : FusionKey) :
    outputBuffer key.params "output" "id" = some key.num_inputs.toNat := by
  have hposition : Param.position "id" ∈ key.params := by simp [FusionKey.params]
  unfold outputBuffer
  refine findSome?_eq_some_of_unique
    ⟨.output key.dtype.vecType "output" key.num_inputs.toNat, ?_, by simp [hposition]⟩ ?_
  · simp [FusionKey.params]
  · intro p hp n hn
    simp only [FusionKey.params, List.mem_append, List.mem_map, List.mem_cons, List.not_mem_nil,
      or_false] at hp
    obtain ⟨i, -, rfl⟩ | rfl | rfl | rfl := hp
    · simp at hn
    · simpa [hposition] using hn.symm
    · simp at hn
    · simp at hn

/-! ### Execution -/

section Exec

variable {key : FusionKey} {t : MslText.Thread α} {stores : List (ℕ × ℕ × α)}

/-- The state between two operations. -/
def accState (v : α) (stores : List (ℕ × ℕ × α)) : State α :=
  { blocks := [[("v", v)]], stores }

/-- An assignment to the accumulator, in the outer block or in a block with `b`. -/
theorem exec_assign {s : State α} {e : Expr} {x : α} {blocks : List (List (String × α))}
    (hreturned : s.returned = false)
    (heval : eval I (valueOf s.blocks) (arrayValue key.params t) e = some x)
    (hset : setValue "v" x s.blocks = some blocks) :
    exec I key.params t s (.assign "v" e) = some { s with blocks } := by
  simp [exec, hreturned, heval, hset]

theorem exec_unary {op : FusedOp} (hop : isUnaryOp op = true) {e : Expr}
    (he : opExpr key.dtype op = some e) {v x : α} (hx : opValue I key.dtype op v v = some x) :
    exec I key.params t (accState v stores) (.assign "v" (e.rename "x" "v"))
      = some (accState x stores) := by
  obtain ⟨e', he', hvars, harrays, -⟩ := readPart_unary key.dtype hop
  obtain rfl : e' = e := some.inj (he'.symm.trans he)
  have heval : eval I (valueOf [[("v", v)]]) (arrayValue key.params t) (e'.rename "x" "v")
      = opValue I key.dtype op v v :=
    eval_rename_eq I (.inl rfl) he (fun w hw => .inl (hvars w hw)) harrays _ rfl
      fun hb => absurd (hvars _ hb) (by decide)
  exact exec_assign I rfl (heval.trans hx) rfl

/-- The block of a binary operation: `b` is there until the block ends. -/
theorem exec_binary {op : FusedOp} (hop : isUnaryOp op = false) {e : Expr}
    (he : opExpr key.dtype op = some e) {j : ℕ} (hj : j < key.num_inputs.toNat) {v x : α}
    (hx : opValue I key.dtype op v (t.buffer j t.position) = some x) :
    [Stmt.opens, .declare key.dtype.vecType "b" (.index ("input" ++ toString j) "id"),
      .assign "v" (e.rename "a" "v"), .closes].foldlM (exec I key.params t) (accState v stores)
      = some (accState x stores) := by
  obtain ⟨e', he', hvars, harrays, -⟩ := readPart_binary key.dtype hop
  obtain rfl : e' = e := some.inj (he'.symm.trans he)
  let b := t.buffer j t.position
  have hopens : exec I key.params t (accState v stores) .opens
      = some { blocks := [[], [("v", v)]], stores } := rfl
  have hload : exec I key.params t { blocks := [[], [("v", v)]], stores }
      (.declare key.dtype.vecType "b" (.index ("input" ++ toString j) "id"))
      = some { blocks := [[("b", b)], [("v", v)]], stores } := by
    simp only [exec, eval, arrayValue_input t hj]
    rfl
  have heval : eval I (valueOf [[("b", b)], [("v", v)]]) (arrayValue key.params t)
      (e'.rename "a" "v") = opValue I key.dtype op v b :=
    eval_rename_eq I (.inr rfl) he hvars harrays _ rfl fun _ => rfl
  have hassign : exec I key.params t { blocks := [[("b", b)], [("v", v)]], stores }
      (.assign "v" (e'.rename "a" "v")) = some { blocks := [[("b", b)], [("v", x)]], stores } :=
    exec_assign I rfl (heval.trans hx) rfl
  have hcloses : exec I key.params t { blocks := [[("b", b)], [("v", x)]], stores } .closes
      = some (accState x stores) := rfl
  simp only [foldlM_cons, foldlM_nil, hopens, hload, hassign, hcloses,
    bind_eq_bind, bind_some]
  rfl

/-- The statements of a chain take the accumulator to its fold. -/
theorem exec_ops {ops : List FusedOp} {j : ℕ} (h : j + binaryOps ops ≤ key.num_inputs.toNat) {v y : α}
    (hy : chainValue I key.dtype (fun i => t.buffer i t.position) ops j v = some y) :
    (opStmts key.dtype j ops).foldlM (exec I key.params t) (accState v stores)
      = some (accState y stores) := by
  induction ops generalizing j v with
  | nil =>
    obtain rfl : v = y := by simpa [chainValue] using hy
    rfl
  | cons op ops ih =>
    by_cases hop : isUnaryOp op = true
    · -- the counter stays
      obtain ⟨e, he, -⟩ := readPart_unary key.dtype hop
      have hbinary : binaryOps (op :: ops) = binaryOps ops := by simp [binaryOps, hop]
      rw [chainValue, if_pos hop] at hy
      obtain ⟨x, hx, hrest⟩ := bind_eq_some_iff.mp hy
      have hstmts : opStmts key.dtype j (op :: ops)
          = .assign "v" (e.rename "x" "v") :: opStmts key.dtype j ops := by
        simp [opStmts, he, hop]
      rw [hstmts, foldlM_cons, exec_unary I hop he hx]
      exact ih (by omega) hrest
    · -- the counter goes to the next input
      obtain ⟨e, he, -⟩ := readPart_binary key.dtype (by simpa using hop)
      have hbinary : binaryOps (op :: ops) = binaryOps ops + 1 := by simp [binaryOps, hop]
      rw [chainValue, if_neg hop] at hy
      obtain ⟨x, hx, hrest⟩ := bind_eq_some_iff.mp hy
      have hstmts : opStmts key.dtype j (op :: ops)
          = [Stmt.opens, .declare key.dtype.vecType "b" (.index ("input" ++ toString j) "id"),
            .assign "v" (e.rename "a" "v"), .closes] ++ opStmts key.dtype (j + 1) ops := by
        simp [opStmts, he, hop]
      rw [hstmts, foldlM_append, exec_binary I (by simpa using hop) he (by omega) hx]
      exact ih (by omega) hrest

/-- The guard at the beginning. -/
theorem exec_guard : exec I key.params t {} (.returnIf "id" "num_vec4s")
    = some { returned := decide (t.position ≥ t.count) } := by
  simp [exec, FusionKey.params]

/-- The accumulator begins as the first input. -/
theorem exec_start (h : 0 < key.num_inputs.toNat) :
    exec I key.params t {} (.declare key.dtype.vecType "v" (.index "input0" "id"))
      = some (accState (t.buffer 0 t.position) []) := by
  have hinput : arrayValue key.params t "input0" "id" = some (t.buffer 0 t.position) :=
    arrayValue_input t h
  simp only [exec, eval, hinput]
  rfl

/-- The accumulator is stored at the thread's position, in the buffer after the inputs. -/
theorem exec_store {v : α} :
    exec I key.params t (accState v stores) (.store "output" "id" (.word "v"))
      = some (accState v (stores ++ [(key.num_inputs.toNat, t.position, v)])) := by
  have heval : eval I (valueOf [[("v", v)]]) (arrayValue key.params t) (.word "v") = some v := rfl
  simp [exec, accState, heval, outputBuffer_output]

theorem exec_returned (stmts : List Stmt) {s : State α} (h : s.returned = true) :
    stmts.foldlM (exec I key.params t) s = some s := by
  induction stmts with
  | nil => rfl
  | cons st stmts ih =>
    have hstep : exec I key.params t s st = some s := by simp [exec, h]
    rw [foldlM_cons, hstep]
    exact ih

end Exec

/-- What each thread stores. -/
theorem run_generateMsl (key : FusionKey) (t : MslText.Thread α)
    (h : key.num_inputs.toNat = 1 + binaryOps key.ops) :
    ∃ y, chainValue I key.dtype (fun j => t.buffer j t.position) key.ops 1 (t.buffer 0 t.position)
        = some y ∧
      Kernel.run ⟨key.kernelName, key.params, key.body⟩ I t
        = some (if t.position < t.count then [(key.num_inputs.toNat, t.position, y)] else []) := by
  obtain ⟨y, hy⟩ := isSome_iff_exists.mp
    (chainValue_isSome I key.dtype (fun j => t.buffer j t.position) key.ops 1
      (t.buffer 0 t.position))
  refine ⟨y, hy, ?_⟩
  unfold Kernel.run FusionKey.body
  rw [append_assoc, foldlM_append, foldlM_cons, exec_guard]
  by_cases hlt : t.position < t.count
  · have hguard : decide (t.position ≥ t.count) = false := by simpa using hlt
    have hops : (opStmts key.dtype 1 key.ops).foldlM (exec I key.params t)
        (accState (t.buffer 0 t.position) []) = some (accState y []) :=
      exec_ops I (by omega) hy
    have hcloses : exec I key.params t
        (accState y [(key.num_inputs.toNat, t.position, y)]) .closes
        = some { blocks := [], stores := [(key.num_inputs.toNat, t.position, y)] } := rfl
    simp only [hguard, foldlM_cons, foldlM_nil, bind_eq_bind, bind_some,
      Option.pure_def, exec_start I (show 0 < key.num_inputs.toNat by omega), List.foldlM_append, hops, exec_store,
      List.nil_append, hcloses, if_pos hlt]
    rfl
  · have hguard : decide (t.position ≥ t.count) = true := by simpa using hlt
    have hskip : ∀ stmts : List Stmt, stmts.foldlM (exec I key.params t)
        { returned := true } = some { returned := true } :=
      fun stmts => exec_returned I stmts rfl
    simp only [hguard, bind_eq_bind, bind_some, hskip, if_neg hlt]
    rfl

end Meaning

/-- A source is generated exactly for chains of one to eight operations with the inputs that they
    need.  Each of its threads stores the fold of the chain, and its buffers are the inputs in their
    order, the output and the count. -/
theorem generateMsl_denotes (key : FusionKey) :
    (generateMsl key ≠ "" ↔ (1 ≤ key.ops.length ∧
      key.ops.length ≤ JITFusionCompiler.MAX_CHAIN_LENGTH) ∧
        key.num_inputs.toNat = 1 + binaryOps key.ops) ∧
    (generateMsl key ≠ "" → ∃ kernel, readKernel (generateMsl key) = some kernel ∧
      kernel.name = key.kernelName ∧ kernel.params = key.params ∧
      ∀ {α : Type} (I : Interp α) (t : MslText.Thread α), ∃ y,
        chainValue I key.dtype (fun j => t.buffer j t.position) key.ops 1 (t.buffer 0 t.position)
          = some y ∧
        kernel.run I t
          = some (if t.position < t.count then [(key.num_inputs.toNat, t.position, y)] else [])) := by
  refine ⟨generateMsl_ne_empty, fun h => ?_⟩
  refine ⟨_, readKernel_generateMsl h, rfl, rfl, ?_⟩
  intro α I t
  exact run_generateMsl I key t (generateMsl_ne_empty.mp h).2

/-- A meaning for the example below: integers with the operations that it uses. -/
def integerLanes : Interp ℤ where
  bin op a b := if op = '*' then a * b else a + b
  neg a := -a
  call₁ _ a := a
  call₂ _ a b := max a b
  literal _ := 0

/-- A product and a maximum with zero: thread 3 of 16 stores 6 where its inputs are 2 and 3. -/
theorem generateMsl_denotes_chain :
    generateMsl ⟨[.Mul, .ReLU], .Float32, 2⟩ ≠ "" ∧
      ∃ kernel, readKernel (generateMsl ⟨[.Mul, .ReLU], .Float32, 2⟩) = some kernel ∧
        kernel.run integerLanes ⟨fun j _ => j + 2, 16, 3⟩ = some [(2, 3, 6)] := by
  have hne : generateMsl ⟨[.Mul, .ReLU], .Float32, 2⟩ ≠ "" :=
    (generateMsl_denotes ⟨[.Mul, .ReLU], .Float32, 2⟩).1.mpr (by decide)
  obtain ⟨kernel, hread, -, -, hrun⟩ :=
    (generateMsl_denotes ⟨[.Mul, .ReLU], .Float32, 2⟩).2 hne
  obtain ⟨y, hy, hstores⟩ := hrun integerLanes ⟨fun j _ => j + 2, 16, 3⟩
  have hfold : chainValue integerLanes .Float32 (fun j => (j : ℤ) + 2) [.Mul, .ReLU] 1 2
      = some 6 := by
    decide +kernel
  obtain rfl : y = 6 := some.inj (hy.symm.trans hfold)
  exact ⟨hne, kernel, hread, hstores⟩

end MetalNative
