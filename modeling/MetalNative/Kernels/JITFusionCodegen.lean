import MetalNative.Kernels.JITFusion
import MetalNative.Lib.MslText

namespace MetalNative

open MslText

/-!
# The source of a fused kernel, read

The source that `generate_msl` writes for a chain of operations is read as text.  The statement of
an operation is the expression of the table `fused_op_msl_expr` with the accumulator in the place of
`x` or `a`; a binary operation loads the next input as `b`, in a block of its own.

* `opExpr`, `opValue` — an entry of the table, read, and its value.
* `chainValue` — the left fold of a chain.
* `readPart_unary`, `readPart_binary`, `readPart_ops` — the statements of the operations.
* `readPart_header`, `readPart_signature` — the parameters, with their buffers.
* `generateMsl_ne_empty`, `readKernel_generateMsl` — when there is a source, and what it is.
-/

/-- The macros of a source. -/
def macros (dtype : FusedDType) : List (String × List Token) :=
  let constant (literal : String) : List Token :=
    [.word dtype.vecType, .sym '(', .word literal, .sym ')']
  [("VEC_ZERO", constant dtype.zeroLiteral), ("VEC_ONE", constant dtype.oneLiteral),
    ("VEC_HALF", constant dtype.halfLiteral),
    ("VEC_GELU_CONST", constant ("0.7978845608" ++ dtype.suffix)),
    ("VEC_GELU_COEFF", constant ("0.044715" ++ dtype.suffix))]

/-! ### The table of expressions -/

/-- The expression of an operation, with its macros expanded. -/
def opExpr (dtype : FusedDType) (op : FusedOp) : Option Expr :=
  parseExpr ((lex (fusedOpMslExpr op).toList).flatMap (expand (macros dtype)))

/-- The value of an operation where the accumulator is `v` and the right operand `b`. -/
def opValue {α : Type} (I : Interp α) (dtype : FusedDType) (op : FusedOp) (v b : α) : Option α :=
  (opExpr dtype op).bind
    (eval I (fun w => if w = "x" ∨ w = "a" then some v else if w = "b" then some b else none)
      fun _ _ => none)

/-- The left fold: a unary operation changes the accumulator, a binary one takes the next input. -/
def chainValue {α : Type} (I : Interp α) (dtype : FusedDType) (input : ℕ → α) :
    List FusedOp → ℕ → α → Option α
  | [], _, v => some v
  | op :: ops, j, v =>
    if isUnaryOp op then (opValue I dtype op v v).bind (chainValue I dtype input ops j)
    else (opValue I dtype op v (input j)).bind (chainValue I dtype input ops (j + 1))

/-- The number of binary operations. -/
def binaryOps (ops : List FusedOp) : ℕ := ops.countP fun op => !isUnaryOp op

/-! ### Words that are no macros -/

/-- No word begins as the macros do. -/
def Plain (ts : List Token) : Prop := ∀ w, .word w ∈ ts → w.toList.head? ≠ some 'V'

@[simp] theorem plain_nil : Plain [] := fun _ h => absurd h List.not_mem_nil

variable {ts : List Token}

@[simp] theorem plain_sym {c : Char} : Plain (.sym c :: ts) ↔ Plain ts := by
  simp [Plain]

@[simp] theorem plain_word {w : String} :
    Plain (.word w :: ts) ↔ w.toList.head? ≠ some 'V' ∧ Plain ts := by
  simp [Plain]

/-- Words that are no macros stay. -/
theorem Plain.expand {dtype : FusedDType} (h : Plain ts) :
    ∀ t ∈ ts, expand (macros dtype) t = [t] := by
  intro t ht
  cases t with
  | sym c => rfl
  | word w =>
    have hne : ∀ name : String, name.toList.head? = some 'V' → (w == name) = false := by
      intro name hname
      exact beq_false_of_ne fun heq => h w ht (heq ▸ hname)
    simp [MslText.expand, macros, List.lookup_cons, List.lookup_nil, hne "VEC_ZERO" (by decide),
      hne "VEC_ONE" (by decide), hne "VEC_HALF" (by decide), hne "VEC_GELU_CONST" (by decide),
      hne "VEC_GELU_COEFF" (by decide)]

@[simp] theorem head_toDigits_ne {n : ℕ} : (Nat.toDigits 10 n).head? ≠ some 'V' := by
  intro h
  have hdigit := Nat.isDigit_of_mem_toDigits (by decide) (by decide) (List.mem_of_mem_head? h)
  exact absurd hdigit (by decide)

/-! ### The statements -/

/-- The statements of a chain, from an input on. -/
def opStmts (dtype : FusedDType) : ℕ → List FusedOp → List Stmt
  | _, [] => []
  | j, op :: ops =>
    match opExpr dtype op with
    | none => []
    | some e =>
      if isUnaryOp op then .assign "v" (e.rename "x" "v") :: opStmts dtype j ops
      else
        [.opens, .declare dtype.vecType "b" (.index ("input" ++ toString j) "id"),
          .assign "v" (e.rename "a" "v"), .closes] ++ opStmts dtype (j + 1) ops

/-- The statement of a unary operation is its entry in the table, with `v` for `x`. -/
theorem readPart_unary (dtype : FusedDType) {op : FusedOp} (h : isUnaryOp op = true) :
    ∃ e, opExpr dtype op = some e ∧ (∀ w ∈ e.vars, w = "x") ∧ e.arrays = [] ∧
      readPart (macros dtype) (unaryStatement op).toList
        = some ([], [.assign "v" (e.rename "x" "v")]) := by
  have hall : ∀ dtype ∈ [FusedDType.Float32, .Float16],
      ∀ op ∈ [FusedOp.Exp, .Log, .Neg, .Abs, .Sqrt, .ReLU, .GELU, .SiLU, .Tanh, .Sigmoid],
        (opExpr dtype op).any (fun e => (∀ w ∈ e.vars, w = "x") ∧ e.arrays = [] ∧
          readPart (macros dtype) (unaryStatement op).toList
            = some ([], [.assign "v" (e.rename "x" "v")])) = true := by
    decide
  obtain ⟨e, he, hP⟩ := (Option.any_eq_true _ _).mp
    (hall dtype (by cases dtype <;> simp) op (by cases op <;> simp_all [isUnaryOp]))
  exact ⟨e, he, of_decide_eq_true hP⟩

@[simp] theorem vecType_head (dtype : FusedDType) : dtype.vecType.toList.head? ≠ some 'V' := by
  cases dtype <;> decide

/-- The line that loads the right operand. -/
theorem hasCode_load (dtype : FusedDType) (j : ℕ) :
    HasCode (macros dtype)
      ("        " ++ dtype.vecType ++ " b = input" ++ toString j ++ "[id];\n").toList
      [.word dtype.vecType, .word "b", .sym '=', .word ("input" ++ toString j), .sym '[',
        .word "id", .sym ']', .sym ';'] := by
  have hpre : transduce lexStep [] ("        " ++ dtype.vecType ++ " b = input").toList
      = ("input".toList, [.word dtype.vecType, .word "b", .sym '=']) := by
    cases dtype <;> decide
  have hpost : transduce lexStep [] "[id];\n".toList
      = ([], [.sym '[', .word "id", .sym ']', .sym ';', .sym '\n']) := by decide
  refine HasCode.line ?_ (by simp) (by simp) (Plain.expand (by simp))
  have hline := transduce_numbered j hpre (by decide) hpost
  simpa [List.append_assoc] using hline

/-- The statement of a binary operation is its entry in the table, with `v` for `a`. -/
theorem readPart_binary (dtype : FusedDType) {op : FusedOp} (h : isUnaryOp op = false) :
    ∃ e, opExpr dtype op = some e ∧ (∀ w ∈ e.vars, w = "a" ∨ w = "b") ∧ e.arrays = [] ∧
      readPart (macros dtype) (binaryStatement op).toList
        = some ([], [.assign "v" (e.rename "a" "v")]) := by
  have hall : ∀ dtype ∈ [FusedDType.Float32, .Float16], ∀ op ∈ [FusedOp.Add, .Sub, .Mul, .Div],
      (opExpr dtype op).any (fun e => (∀ w ∈ e.vars, w = "a" ∨ w = "b") ∧ e.arrays = [] ∧
        readPart (macros dtype) (binaryStatement op).toList
          = some ([], [.assign "v" (e.rename "a" "v")])) = true := by
    decide
  obtain ⟨e, he, hP⟩ := (Option.any_eq_true _ _).mp
    (hall dtype (by cases dtype <;> simp) op (by cases op <;> simp_all [isUnaryOp]))
  exact ⟨e, he, of_decide_eq_true hP⟩

/-- The block of a binary operation. -/
theorem readPart_block (dtype : FusedDType) {op : FusedOp} (h : isUnaryOp op = false) (j : ℕ) :
    ∃ e, opExpr dtype op = some e ∧
      readPart (macros dtype)
        ("    \x7b\n" ++ "        " ++ dtype.vecType ++ " b = input" ++ toString j ++ "[id];\n"
          ++ binaryStatement op ++ "    \x7d\n").toList
        = some ([], [.opens, .declare dtype.vecType "b" (.index ("input" ++ toString j) "id"),
            .assign "v" (e.rename "a" "v"), .closes]) := by
  obtain ⟨e, he, -, -, hop⟩ := readPart_binary dtype h
  have hopen : readPart (macros dtype) "    \x7b\n".toList = some ([], [.opens]) := by
    cases dtype <;> decide
  have hclose : readPart (macros dtype) "    \x7d\n".toList = some ([], [.closes]) := by
    cases dtype <;> decide
  have hload : readPart (macros dtype)
      ("        " ++ dtype.vecType ++ " b = input" ++ toString j ++ "[id];\n").toList
      = some ([], [.declare dtype.vecType "b" (.index ("input" ++ toString j) "id")]) :=
    (hasCode_load dtype j).readPart rfl rfl
  refine ⟨e, he, ?_⟩
  have hall := readPart_append (readPart_append (readPart_append hopen hload) hop) hclose
  simpa [List.append_assoc] using hall

theorem requiredInputs_toNat {ops : List FusedOp} (h : ops.length ≤ 8) :
    (requiredInputs ops).toNat = 1 + binaryOps ops := by
  have hfold : ∀ (ops : List FusedOp) (n : UInt32), n.toNat + ops.length < 2 ^ 32 →
      (ops.foldl (fun required_inputs op =>
        if isUnaryOp op then required_inputs else required_inputs + 1) n).toNat
        = n.toNat + binaryOps ops := by
    intro ops
    induction ops with
    | nil => intro n _; rfl
    | cons op ops ih =>
      intro n hn
      rw [List.length_cons] at hn
      by_cases hop : isUnaryOp op = true
      · simp [List.foldl_cons, hop, binaryOps, ih n (by omega)]
      · have hsucc : (n + 1).toNat = n.toNat + 1 := by
          rw [UInt32.toNat_add]
          exact Nat.mod_eq_of_lt (by simp; omega)
        simp only [List.foldl_cons, hop, Bool.false_eq_true, if_false]
        rw [ih (n + 1) (by omega), hsucc]
        simp only [binaryOps, List.countP_cons, hop]
        simp
        omega
  exact hfold ops 1 (by simp; omega)

/-- The statements of a chain whose operations find their inputs. -/
theorem readPart_ops (key : FusionKey) (next_input : UInt32) {ops : List FusedOp}
    (h : next_input.toNat + binaryOps ops = key.num_inputs.toNat) :
    ∃ text, writeOps key next_input ops = some text ∧
      readPart (macros key.dtype) text.toList
        = some ([], opStmts key.dtype next_input.toNat ops) := by
  induction ops generalizing next_input with
  | nil =>
    refine ⟨"", rfl, ?_⟩
    rw [String.toList_empty]
    exact HasCode.nil.readPart rfl rfl
  | cons op ops ih =>
    by_cases hop : isUnaryOp op = true
    · -- the counter stays
      have hinputs : next_input.toNat + binaryOps ops = key.num_inputs.toNat := by
        simpa [binaryOps, hop] using h
      obtain ⟨rest, hrest, hread⟩ := ih _ hinputs
      obtain ⟨e, he, -, -, hread₁⟩ := readPart_unary key.dtype hop
      refine ⟨unaryStatement op ++ rest, by simp [writeOps, hop, hrest], ?_⟩
      have hall := readPart_append hread₁ hread
      simpa [opStmts, he, hop] using hall
    · -- the counter goes to the next input, which there is
      have hbinary : binaryOps (op :: ops) = binaryOps ops + 1 := by
        simp [binaryOps, hop]
      have hlt : next_input.toNat < key.num_inputs.toNat := by omega
      have hsucc : (next_input + 1).toNat = next_input.toNat + 1 := by
        have := key.num_inputs.toNat_lt
        rw [UInt32.toNat_add]
        exact Nat.mod_eq_of_lt (by simp; omega)
      have hinputs : (next_input + 1).toNat + binaryOps ops = key.num_inputs.toNat := by
        omega
      obtain ⟨rest, hrest, hread⟩ := ih _ hinputs
      obtain ⟨e, he, hread₁⟩ :=
        readPart_block key.dtype (by simpa using hop) next_input.toNat
      have hge : ¬ next_input ≥ key.num_inputs := by
        rw [ge_iff_le, UInt32.le_iff_toNat_le]
        omega
      refine ⟨_, by simp only [writeOps, hop, hge, hrest]; rfl, ?_⟩
      have hall := readPart_append hread₁ hread
      rw [← String.toList_append] at hall
      simpa [opStmts, he, hop, hsucc] using hall

/-! ### The signature -/

/-- The parameters of a source. -/
def FusionKey.params (key : FusionKey) : List Param :=
  (List.range key.num_inputs.toNat).map
      (fun i => .input key.dtype.vecType ("input" ++ toString i) i)
    ++ [.output key.dtype.vecType "output" key.num_inputs.toNat,
      .count "num_vec4s" (key.num_inputs.toNat + 1), .position "id"]

/-- The tokens of an attribute `[[buffer(n)]]`. -/
def bufferTokens (n : ℕ) : List Token :=
  [.sym '[', .sym '[', .word "buffer", .sym '(', .word (toString n), .sym ')', .sym ']', .sym ']']

/-- The tokens of an input. -/
def inputTokens (dtype : FusedDType) (i : ℕ) : List Token :=
  [.word "device", .word "const", .word dtype.vecType, .sym '*', .word ("input" ++ toString i)]
    ++ bufferTokens i

/-- The tokens of the output. -/
def outputTokens (dtype : FusedDType) (n : ℕ) : List Token :=
  [.word "device", .word dtype.vecType, .sym '*', .word "output"] ++ bufferTokens n

/-- The tokens of the count. -/
def countTokens (n : ℕ) : List Token :=
  [.word "constant", .word "uint", .sym '&', .word "num_vec4s"] ++ bufferTokens n

/-- The tokens of the parameters in front of the thread's position. -/
def paramTokens (key : FusionKey) : List (List Token) :=
  (List.range key.num_inputs.toNat).map (inputTokens key.dtype)
    ++ [outputTokens key.dtype key.num_inputs.toNat, countTokens (key.num_inputs.toNat + 1)]

/-- The tokens of the thread's position. -/
def positionTokens : List Token :=
  [.word "uint", .word "id", .sym '[', .sym '[', .word "thread_position_in_grid", .sym ']',
    .sym ']']

/-- What stands behind the number of a buffer. -/
theorem transduce_bufferEnd :
    transduce lexStep [] ")]],\n".toList
      = ([], [.sym ')', .sym ']', .sym ']', .sym ',', .sym '\n']) := by
  decide

/-- The line of an input. -/
theorem hasCode_input (dtype : FusedDType) (i : ℕ) :
    HasCode (macros dtype)
      ("    device const " ++ dtype.vecType ++ "* input" ++ toString i
        ++ " [[buffer(" ++ toString i ++ ")]],\n").toList
      (inputTokens dtype i ++ [.sym ',']) := by
  have hpre : transduce lexStep [] ("    device const " ++ dtype.vecType ++ "* input").toList
      = ("input".toList, [.word "device", .word "const", .word dtype.vecType, .sym '*']) := by
    cases dtype <;> decide
  have hattr : transduce lexStep [] " [[buffer(".toList
      = ([], [.sym '[', .sym '[', .word "buffer", .sym '(']) := by
    decide
  refine HasCode.line ?_ (by simp [inputTokens]) (by simp [inputTokens, bufferTokens])
    (Plain.expand (by simp [inputTokens, bufferTokens]))
  -- the number stands twice in the line
  have hbuffer := transduce_numbered i hattr (by decide) transduce_bufferEnd
  have hline := transduce_numbered i hpre (by simp; decide) hbuffer
  simpa [inputTokens, bufferTokens, List.append_assoc] using hline

/-- The line of the output. -/
theorem hasCode_output (dtype : FusedDType) (n : ℕ) :
    HasCode (macros dtype)
      ("    device " ++ dtype.vecType ++ "* output [[buffer(" ++ toString n ++ ")]],\n").toList
      (outputTokens dtype n ++ [.sym ',']) := by
  have hpre : transduce lexStep [] ("    device " ++ dtype.vecType ++ "* output [[buffer(").toList
      = ([], [.word "device", .word dtype.vecType, .sym '*', .word "output", .sym '[', .sym '[',
        .word "buffer", .sym '(']) := by
    cases dtype <;> decide
  refine HasCode.line ?_ (by simp [outputTokens]) (by simp [outputTokens, bufferTokens])
    (Plain.expand (by simp [outputTokens, bufferTokens]))
  have hline := transduce_numbered n hpre (by decide) transduce_bufferEnd
  simpa [outputTokens, bufferTokens, List.append_assoc] using hline

/-- The line of the count. -/
theorem hasCode_count (dtype : FusedDType) (n : ℕ) :
    HasCode (macros dtype)
      ("    constant uint& num_vec4s [[buffer(" ++ toString n ++ ")]],\n").toList
      (countTokens n ++ [.sym ',']) := by
  have hpre : transduce lexStep [] "    constant uint& num_vec4s [[buffer(".toList
      = ([], [.word "constant", .word "uint", .sym '&', .word "num_vec4s", .sym '[', .sym '[',
        .word "buffer", .sym '(']) := by
    decide
  refine HasCode.line ?_ (by simp [countTokens]) (by simp [countTokens, bufferTokens])
    (Plain.expand (by simp [countTokens, bufferTokens]))
  have hline := transduce_numbered n hpre (by decide) transduce_bufferEnd
  simpa [countTokens, bufferTokens, List.append_assoc] using hline

/-- The line with the name of the kernel. -/
theorem hasCode_name (key : FusionKey) :
    HasCode (macros key.dtype) ("kernel void " ++ key.kernelName ++ "(\n").toList
      [.word "kernel", .word "void", .word key.kernelName, .sym '('] := by
  have hpre : transduce lexStep [] "kernel void fused_ew_".toList
      = ("fused_ew_".toList, [.word "kernel", .word "void"]) := by
    decide
  have hpost : transduce lexStep [] "(\n".toList = ([], [.sym '(', .sym '\n']) := by
    decide
  have hsplit : "kernel void fused_ew_" = "kernel void " ++ "fused_ew_" := by decide
  refine HasCode.line ?_ (by simp) (by simp) (Plain.expand (by simp [FusionKey.kernelName]))
  have hline := transduce_numbered key.hash.toNat hpre (by decide) hpost
  simpa [FusionKey.kernelName, hsplit, List.append_assoc] using hline

/-- The lines that end the signature. -/
theorem hasCode_position (dtype : FusedDType) :
    HasCode (macros dtype) ("    uint id [[thread_position_in_grid]])\n" ++ "\x7b\n").toList
      (positionTokens ++ [.sym ')', .sym '\x7b']) := by
  have hposition : HasCode (macros dtype) "    uint id [[thread_position_in_grid]])\n".toList
      (positionTokens ++ [.sym ')']) :=
    HasCode.line (by decide) (by decide) (by decide) (Plain.expand (by simp [positionTokens]))
  have hbrace : HasCode (macros dtype) "\x7b\n".toList [.sym '\x7b'] :=
    HasCode.line (by decide) (by decide) (by decide) (Plain.expand (by simp))
  simpa using hposition.append hbrace

/-- The tokens of the signature. -/
def headerTokens (key : FusionKey) : List Token :=
  [.word "kernel", .word "void", .word key.kernelName, .sym '('] ++
    ((paramTokens key).flatMap (· ++ [.sym ',']) ++ (positionTokens ++ [.sym ')']))

variable {key : FusionKey}

/-- The text of the signature up to its brace. -/
theorem hasCode_header (h : key.num_inputs.toNat + 1 < 2 ^ 32) :
    HasCode (macros key.dtype)
      ("kernel void " ++ key.kernelName ++ "(\n"
        ++ writeInputs key.dtype.vecType key.num_inputs
        ++ "    device " ++ key.dtype.vecType ++ "* output [[buffer("
        ++ toString key.num_inputs.toNat ++ ")]],\n"
        ++ "    constant uint& num_vec4s [[buffer(" ++ toString (key.num_inputs + 1).toNat
        ++ ")]],\n"
        ++ "    uint id [[thread_position_in_grid]])\n"
        ++ "\x7b\n").toList (headerTokens key ++ [.sym '\x7b']) := by
  have hsucc : (key.num_inputs + 1).toNat = key.num_inputs.toNat + 1 := by
    rw [UInt32.toNat_add]
    exact Nat.mod_eq_of_lt (by simpa using h)
  have hinputs := HasCode.flatMap (l := List.range key.num_inputs.toNat)
    fun i _ => hasCode_input key.dtype i
  have hall := (hasCode_name key).append <| hinputs.append <|
    (hasCode_output key.dtype key.num_inputs.toNat).append <|
      (hasCode_count key.dtype (key.num_inputs.toNat + 1)).append (hasCode_position key.dtype)
  simpa [headerTokens, paramTokens, writeInputs, hsucc, List.flatMap_append, List.flatMap_map,
    String.toList_join, List.append_assoc] using hall

/-- The parameters are read with their buffers. -/
theorem mapM_readParam (key : FusionKey) :
    (paramTokens key ++ [positionTokens]).mapM readParam = some key.params := by
  have hbuffer : ∀ n, bufferOf (bufferTokens n) = some n := by
    intro n
    have hn : decimal n.repr = n := decimal_toString n
    simp [bufferTokens, bufferOf, hn]
  have hinputs : ((List.range key.num_inputs.toNat).map (inputTokens key.dtype)).mapM readParam
      = some ((List.range key.num_inputs.toNat).map
          fun i => .input key.dtype.vecType ("input" ++ toString i) i) := by
    rw [List.mapM_map]
    exact mapM_eq_some fun i _ => by simp [inputTokens, readParam, hbuffer]
  have hrest : ([outputTokens key.dtype key.num_inputs.toNat,
      countTokens (key.num_inputs.toNat + 1)] ++ [positionTokens]).mapM readParam
      = some [.output key.dtype.vecType "output" key.num_inputs.toNat,
          .count "num_vec4s" (key.num_inputs.toNat + 1), .position "id"] := by
    simp [outputTokens, countTokens, positionTokens, readParam, hbuffer]
  rw [paramTokens, List.append_assoc, List.mapM_append, hinputs, hrest]
  rfl

/-- No parameter has a comma of its own, or a character that ends an item. -/
theorem mem_paramTokens (h : ts ∈ paramTokens key) :
    ∀ t ∈ ts, t ≠ .sym ',' ∧ t ≠ .sym ';' ∧ t ≠ .sym '\x7b' ∧ t ≠ .sym '\x7d' := by
  simp only [paramTokens, List.mem_append, List.mem_map, List.mem_cons, List.not_mem_nil,
    or_false] at h
  obtain ⟨i, -, rfl⟩ | rfl | rfl := h <;>
    simp [inputTokens, outputTokens, countTokens, bufferTokens]

theorem readItem_header (key : FusionKey) :
    readItem (headerTokens key, '\x7b') = some (.kernel key.kernelName key.params) := by
  have hcomma : commaList ((paramTokens key).flatMap (· ++ [.sym ',']) ++ positionTokens)
      = paramTokens key ++ [positionTokens] :=
    commaList_flatMap (fun ts hts hmem => (mem_paramTokens hts _ hmem).1 rfl) (by decide)
  have hheader : headerTokens key = .word "kernel" :: .word "void" :: .word key.kernelName ::
      .sym '(' :: ((paramTokens key).flatMap (· ++ [.sym ',']) ++ positionTokens ++
        [.sym ')']) := by
    simp [headerTokens]
  rw [hheader]
  simp only [readItem, List.getLast?_concat, List.dropLast_concat, hcomma, mapM_readParam, and_self,
    if_true, Option.map_some]

theorem readPart_header (h : key.num_inputs.toNat + 1 < 2 ^ 32) :
    readPart (macros key.dtype)
      ("kernel void " ++ key.kernelName ++ "(\n"
        ++ writeInputs key.dtype.vecType key.num_inputs
        ++ "    device " ++ key.dtype.vecType ++ "* output [[buffer("
        ++ toString key.num_inputs.toNat ++ ")]],\n"
        ++ "    constant uint& num_vec4s [[buffer(" ++ toString (key.num_inputs + 1).toNat
        ++ ")]],\n"
        ++ "    uint id [[thread_position_in_grid]])\n"
        ++ "\x7b\n").toList
      = some ([], [.kernel key.kernelName key.params]) := by
  have hitem : transduce itemStep [] (headerTokens key ++ [.sym '\x7b'])
      = ([], [(headerTokens key, '\x7b')]) := by
    have hcode : ∀ t ∈ headerTokens key, t ≠ .sym ';' ∧ t ≠ .sym '\x7b' ∧ t ≠ .sym '\x7d' := by
      intro t ht
      simp only [headerTokens, List.mem_append, List.mem_flatMap] at ht
      obtain hname | ⟨ts, hts, hmem | hcomma⟩ | hposition | hparen := ht
      · simp only [List.mem_cons, List.not_mem_nil, or_false] at hname
        obtain rfl | rfl | rfl | rfl := hname <;> simp
      · exact (mem_paramTokens hts t hmem).2
      · simp_all
      · revert t
        decide
      · simp_all
    rw [transduce_append, transduce_item hcode, List.nil_append]
    rfl
  refine (hasCode_header h).readPart hitem ?_
  simp [readItem_header]

/-! ### The whole source -/

/-- The body of a source. -/
def FusionKey.body (key : FusionKey) : List Stmt :=
  [.returnIf "id" "num_vec4s", .declare key.dtype.vecType "v" (.index "input0" "id")]
    ++ opStmts key.dtype 1 key.ops ++ [.store "output" "id" (.word "v"), .closes]

theorem readPart_macros (dtype : FusedDType) :
    readPart (macros dtype) (writeMacros dtype).toList
      = some (macros dtype, [.using [.word "namespace", .word "metal"]]) := by
  cases dtype <;> decide +kernel

/-- The signature is followed by the guard and the load of the first input. -/
theorem readPart_signature (h : key.num_inputs.toNat + 1 < 2 ^ 32) :
    readPart (macros key.dtype) (writeSignature key).toList
      = some ([], [.kernel key.kernelName key.params, .returnIf "id" "num_vec4s",
          .declare key.dtype.vecType "v" (.index "input0" "id")]) := by
  have hstart : ∀ dtype : FusedDType, readPart (macros dtype)
      ("    if (id >= num_vec4s) return;\n\n" ++ "    " ++ dtype.vecType ++
        " v = input0[id];\n").toList
      = some ([], [.returnIf "id" "num_vec4s",
          .declare dtype.vecType "v" (.index "input0" "id")]) := by
    intro dtype
    cases dtype <;> decide
  have hall := readPart_append (readPart_header h) (hstart key.dtype)
  simp only [String.toList_append, List.append_assoc] at hall
  unfold writeSignature
  simp only [String.toList_append, List.append_assoc]
  exact hall

/-- When a source is generated. -/
theorem generateMsl_ne_empty :
    generateMsl key ≠ "" ↔ (1 ≤ key.ops.length ∧
      key.ops.length ≤ JITFusionCompiler.MAX_CHAIN_LENGTH) ∧
        key.num_inputs.toNat = 1 + binaryOps key.ops := by
  unfold generateMsl
  by_cases hlen : key.ops.isEmpty ∨ key.ops.length > JITFusionCompiler.MAX_CHAIN_LENGTH
  · rw [if_pos hlen]
    simp only [ne_eq, not_true_eq_false, false_iff, List.isEmpty_iff] at hlen ⊢
    rintro ⟨⟨hpos, hle⟩, -⟩
    obtain hempty | hgt := hlen
    · simp [hempty] at hpos
    · omega
  · rw [if_neg hlen]
    simp only [List.isEmpty_iff, not_or, not_lt, ← List.length_eq_zero_iff] at hlen
    obtain ⟨hpos, hle⟩ := hlen
    have hrequired : key.num_inputs = requiredInputs key.ops ↔
        key.num_inputs.toNat = 1 + binaryOps key.ops := by
      rw [← requiredInputs_toNat hle, UInt32.toNat_inj]
    by_cases hinputs : key.num_inputs = requiredInputs key.ops
    · rw [if_neg (not_not.mpr hinputs)]
      obtain ⟨text, htext, -⟩ := readPart_ops key 1 (hrequired.mp hinputs).symm
      simp only [htext]
      refine iff_of_true ?_ ⟨⟨by omega, hle⟩, hrequired.mp hinputs⟩
      intro hempty
      have hlength := congrArg (·.toList.length) hempty
      simp at hlength
    · rw [if_pos hinputs]
      exact iff_of_false (by simp) fun h => hinputs (hrequired.mpr h.2)

/-- What is read in a source. -/
theorem readKernel_generateMsl (h : generateMsl key ≠ "") :
    readKernel (generateMsl key) = some ⟨key.kernelName, key.params, key.body⟩ := by
  obtain ⟨⟨hpos, hle⟩, hinputs⟩ := generateMsl_ne_empty.mp h
  have hrequired : key.num_inputs = requiredInputs key.ops := by
    rw [← UInt32.toNat_inj, requiredInputs_toNat hle, hinputs]
  have hbinary : binaryOps key.ops ≤ key.ops.length := List.countP_le_length
  have hlt : key.num_inputs.toNat + 1 < 2 ^ 32 := by
    rw [JITFusionCompiler.MAX_CHAIN_LENGTH] at hle
    omega
  obtain ⟨text, htext, hread⟩ := readPart_ops key 1 hinputs.symm
  have hend : ∀ dtype, readPart (macros dtype) ("    output[id] = v;\n" ++ "\x7d\n").toList
      = some ([], [.store "output" "id" (.word "v"), .closes]) := by
    intro dtype
    cases dtype <;> decide
  have hmsl : generateMsl key = writeMacros key.dtype ++ writeSignature key ++ text
      ++ "    output[id] = v;\n" ++ "\x7d\n" := by
    have hlen : ¬(key.ops.isEmpty ∨ key.ops.length > JITFusionCompiler.MAX_CHAIN_LENGTH) := by
      rw [List.isEmpty_iff, ← List.length_eq_zero_iff]
      omega
    simp only [generateMsl, if_neg hlen, if_neg (not_not.mpr hrequired), htext]
  have hall := readPart_append (readPart_append
    (readPart_append (readPart_macros key.dtype) (readPart_signature hlt)) hread) (hend key.dtype)
  have hparts : readPart (macros key.dtype) (generateMsl key).toList
      = some (macros key.dtype, .using [.word "namespace", .word "metal"]
          :: .kernel key.kernelName key.params :: key.body) := by
    rw [hmsl]
    simpa [FusionKey.body, List.append_assoc] using hall
  exact readKernel_of_readPart hparts

end MetalNative
