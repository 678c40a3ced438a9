import Mathlib.Data.List.Basic

namespace MslText

/-!
# Kernels as text

A reader and an interpreter for a fragment of the Metal shading language: macros without arguments,
one kernel, and in its body declarations, assignments, blocks, an early return and stores.  The text
goes through stages, each of which walks once through a list, so that what a stage does to a text is
what it does to its parts.

* `transduce`, `transduce_append` — a walk with a state and an output.
* `lex`, `preprocess`, `expand`, `items` — tokens, directives, macros, and the parts of the code
  that end with `;`, `\x7b` or `\x7d`.
* `parseAt`, `readItem`, `readKernel` — expressions, statements and the kernel.
* `Interp`, `eval`, `run` — what a kernel stores, for any meaning of its operations.
-/

/-! ### Walks -/

section Transduce

variable {σ α β : Type*} (step : σ → α → σ × List β)

/-- A walk through a list: the state at the end, and what has been put out. -/
def transduce : σ → List α → σ × List β
  | s, [] => (s, [])
  | s, x :: xs => ((transduce (step s x).1 xs).1, (step s x).2 ++ (transduce (step s x).1 xs).2)

/-- A walk goes on where it was. -/
theorem transduce_append (s : σ) (xs ys : List α) :
    transduce step s (xs ++ ys)
      = ((transduce step (transduce step s xs).1 ys).1,
        (transduce step s xs).2 ++ (transduce step (transduce step s xs).1 ys).2) := by
  induction xs generalizing s with
  | nil => simp [transduce]
  | cons x xs ih => simp [transduce, ih, List.append_assoc]

/-- A walk through parts that each bring it back to where it started. -/
theorem transduce_flatMap {γ : Type*} {s : σ} (f : γ → List α) (g : γ → List β) {l : List γ}
    (h : ∀ c ∈ l, transduce step s (f c) = (s, g c)) :
    transduce step s (l.flatMap f) = (s, l.flatMap g) := by
  induction l with
  | nil => rfl
  | cons c l ih =>
    rw [List.flatMap_cons, List.flatMap_cons, transduce_append, h c (List.mem_cons_self ..),
      ih fun d hd => h d (List.mem_cons_of_mem _ hd)]

end Transduce

/-! ### Tokens -/

/-- A word, which may be a number, or any other character that is not white space. -/
inductive Token where
  | word (w : String)
  | sym (c : Char)
  deriving DecidableEq, Repr

/-- The characters of words and numbers. -/
def isWordChar (c : Char) : Bool := c.isAlphanum || c == '_' || c == '.'

/-- The word that has been read. -/
def endWord (acc : List Char) : List Token :=
  if acc.isEmpty then [] else [.word (String.ofList acc)]

/-- One character; ends of lines are kept. -/
def lexStep (acc : List Char) (c : Char) : List Char × List Token :=
  if isWordChar c then (acc ++ [c], [])
  else ([], endWord acc ++ if c.isWhitespace && c != '\n' then [] else [.sym c])

/-- The tokens of a text. -/
def lex (text : List Char) : List Token :=
  (transduce lexStep [] text).2 ++ endWord (transduce lexStep [] text).1

/-- The characters of a word are collected. -/
theorem transduce_word {acc w : List Char} (h : ∀ c ∈ w, isWordChar c = true) :
    transduce lexStep acc w = (acc ++ w, []) := by
  induction w generalizing acc with
  | nil => simp [transduce]
  | cons c w ih =>
    have hc := h c (List.mem_cons_self ..)
    simp [transduce, lexStep, hc, ih fun d hd => h d (List.mem_cons_of_mem _ hd)]

theorem isWordChar_toString {n : ℕ} : ∀ c ∈ (toString n).toList, isWordChar c = true := by
  intro c hc
  have hc' : c ∈ Nat.toDigits 10 n := by
    rw [← Nat.toList_repr]
    exact hc
  have hdigit := Nat.isDigit_of_mem_toDigits (by decide) (by decide) hc'
  simp [isWordChar, Char.isAlphanum, hdigit]

/-! ### Directives and macros -/

/-- A token of the code, or the tokens of a directive. -/
inductive Piece where
  | code (t : Token)
  | directive (ts : List Token)
  deriving DecidableEq, Repr

/-- Where in a line the preprocessor is. -/
inductive LineState where
  | start
  | code
  | directive (ts : List Token)
  deriving DecidableEq, Repr

/-- One token: a directive is the rest of a line that begins with `#`. -/
def preprocessStep : LineState → Token → LineState × List Piece
  | .directive ts, t =>
    if t = .sym '\n' then (.start, [.directive ts]) else (.directive (ts ++ [t]), [])
  | .start, t =>
    if t = .sym '\n' then (.start, [])
    else if t = .sym '#' then (.directive [], [])
    else (.code, [.code t])
  | .code, t => if t = .sym '\n' then (.start, []) else (.code, [.code t])

/-- The code and the directives. -/
def preprocess (ts : List Token) : List Piece := (transduce preprocessStep .start ts).2

/-- The macro that a directive defines. -/
def macroOf : Piece → Option (String × List Token)
  | .directive (.word d :: .word name :: body) => if d = "define" then some (name, body) else none
  | _ => none

/-- The token of a piece of code. -/
def codeOf : Piece → Option Token
  | .code t => some t
  | .directive _ => none

/-- A macro stands for its body. -/
def expand (macros : List (String × List Token)) : Token → List Token
  | .word w => (macros.lookup w).getD [.word w]
  | .sym c => [.sym c]

/-! ### Expressions -/

/-- Expressions; a word is a variable, or a literal if it begins with a digit. -/
inductive Expr where
  | word (w : String)
  | index (array i : String)
  | call₁ (f : String) (a : Expr)
  | call₂ (f : String) (a b : Expr)
  | neg (a : Expr)
  | bin (op : Char) (a b : Expr)
  deriving DecidableEq, Repr

/-- What is to be read: a sum or a product, from its beginning or after a first part, or an
operand. -/
inductive Level where
  | sum
  | sumRest (a : Expr)
  | product
  | productRest (a : Expr)
  | operand
  deriving DecidableEq, Repr

/-- Recursive descent; operators of one level are read from left to right. -/
def parseAt : ℕ → Level → List Token → Option (Expr × List Token)
  | 0, _, _ => none
  | fuel + 1, .sum, ts => do
    let (a, ts) ← parseAt fuel .product ts
    parseAt fuel (.sumRest a) ts
  | fuel + 1, .sumRest a, .sym '+' :: ts => do
    let (b, ts) ← parseAt fuel .product ts
    parseAt fuel (.sumRest (.bin '+' a b)) ts
  | fuel + 1, .sumRest a, .sym '-' :: ts => do
    let (b, ts) ← parseAt fuel .product ts
    parseAt fuel (.sumRest (.bin '-' a b)) ts
  | _ + 1, .sumRest a, ts => some (a, ts)
  | fuel + 1, .product, ts => do
    let (a, ts) ← parseAt fuel .operand ts
    parseAt fuel (.productRest a) ts
  | fuel + 1, .productRest a, .sym '*' :: ts => do
    let (b, ts) ← parseAt fuel .operand ts
    parseAt fuel (.productRest (.bin '*' a b)) ts
  | fuel + 1, .productRest a, .sym '/' :: ts => do
    let (b, ts) ← parseAt fuel .operand ts
    parseAt fuel (.productRest (.bin '/' a b)) ts
  | _ + 1, .productRest a, ts => some (a, ts)
  | fuel + 1, .operand, .sym '-' :: ts => do
    let (a, ts) ← parseAt fuel .operand ts
    some (.neg a, ts)
  | fuel + 1, .operand, .sym '(' :: ts =>
    match parseAt fuel .sum ts with
    | some (a, .sym ')' :: ts) => some (a, ts)
    | _ => none
  | fuel + 1, .operand, .word f :: .sym '(' :: ts =>
    match parseAt fuel .sum ts with
    | some (a, .sym ')' :: ts) => some (.call₁ f a, ts)
    | some (a, .sym ',' :: ts) =>
      match parseAt fuel .sum ts with
      | some (b, .sym ')' :: ts) => some (.call₂ f a b, ts)
      | _ => none
    | _ => none
  | _ + 1, .operand, .word array :: .sym '[' :: .word i :: .sym ']' :: ts =>
    some (.index array i, ts)
  | _ + 1, .operand, .word w :: ts => some (.word w, ts)
  | _ + 1, .operand, _ => none

/-- An expression that takes all of the tokens; no level is entered more often than there are
    tokens, five levels deep. -/
def parseExpr (ts : List Token) : Option Expr :=
  match parseAt (5 * ts.length + 5) .sum ts with
  | some (e, []) => some e
  | _ => none

/-! ### Statements and the kernel -/

/-- A parameter of the kernel: an array that is read, one that is written, a number, or the thread's
    position. -/
inductive Param where
  | input (type name : String) (buffer : ℕ)
  | output (type name : String) (buffer : ℕ)
  | count (name : String) (buffer : ℕ)
  | position (name : String)
  deriving DecidableEq, Repr

/-- Statements, with the beginning of the kernel and the ends of blocks. -/
inductive Stmt where
  | using (ts : List Token)
  | kernel (name : String) (params : List Param)
  | returnIf (a b : String)
  | declare (type name : String) (e : Expr)
  | assign (name : String) (e : Expr)
  | store (array i : String) (e : Expr)
  | opens
  | closes
  deriving DecidableEq, Repr

/-- The parts of the code that end with `;` or a brace. -/
def itemStep (acc : List Token) (t : Token) : List Token × List (List Token × Char) :=
  match t with
  | .sym ';' => ([], [(acc, ';')])
  | .sym '\x7b' => ([], [(acc, '\x7b')])
  | .sym '\x7d' => ([], [(acc, '\x7d')])
  | t => (acc ++ [t], [])

/-- The items of the code. -/
def items (ts : List Token) : List (List Token × Char) := (transduce itemStep [] ts).2

/-- The parts between commas. -/
def commaStep (acc : List Token) (t : Token) : List Token × List (List Token) :=
  if t = .sym ',' then ([], [acc]) else (acc ++ [t], [])

/-- A list separated by commas. -/
def commaList (ts : List Token) : List (List Token) :=
  (transduce commaStep [] ts).2 ++ [(transduce commaStep [] ts).1]

/-- The number of a decimal. -/
def decimal (w : String) : ℕ := Nat.ofDigitChars 10 w.toList 0

/-- The number in `[[buffer(n)]]`. -/
def bufferOf : List Token → Option ℕ
  | [.sym '[', .sym '[', .word attr, .sym '(', .word n, .sym ')', .sym ']', .sym ']'] =>
    if attr = "buffer" then some (decimal n) else none
  | _ => none

/-- A parameter. -/
def readParam : List Token → Option Param
  | .word space :: .word const :: .word type :: .sym '*' :: .word name :: ts =>
    if space = "device" ∧ const = "const" then (bufferOf ts).map (.input type name) else none
  | .word space :: .word type :: .sym '*' :: .word name :: ts =>
    if space = "device" then (bufferOf ts).map (.output type name) else none
  | .word space :: .word type :: .sym '&' :: .word name :: ts =>
    if space = "constant" ∧ type = "uint" then (bufferOf ts).map (.count name) else none
  | [.word type, .word name, .sym '[', .sym '[', .word attr, .sym ']', .sym ']'] =>
    if type = "uint" ∧ attr = "thread_position_in_grid" then some (.position name) else none
  | _ => none

/-- An item. -/
def readItem : List Token × Char → Option Stmt
  | ([], '\x7b') => some .opens
  | ([], '\x7d') => some .closes
  | (.word kernel :: .word void :: .word name :: .sym '(' :: ts, '\x7b') =>
    if kernel = "kernel" ∧ void = "void" ∧ ts.getLast? = some (.sym ')') then
      ((commaList ts.dropLast).mapM readParam).map (.kernel name)
    else none
  | ([.word cond, .sym '(', .word a, .sym '>', .sym '=', .word b, .sym ')', .word ret], ';') =>
    if cond = "if" ∧ ret = "return" then some (.returnIf a b) else none
  | (.word type :: .word name :: .sym '=' :: ts, ';') => (parseExpr ts).map (.declare type name)
  | (.word name :: .sym '=' :: ts, ';') => (parseExpr ts).map (.assign name)
  | (.word array :: .sym '[' :: .word i :: .sym ']' :: .sym '=' :: ts, ';') =>
    (parseExpr ts).map (.store array i)
  | (.word u :: ts, ';') => if u = "using" then some (.using ts) else none
  | _ => none

/-- A kernel: its body ends with the brace that closes it. -/
structure Kernel where
  name : String
  params : List Param
  body : List Stmt
  deriving DecidableEq, Repr

/-- The kernel of a text, with the declarations in front of it. -/
def readKernel (text : String) : Option Kernel :=
  let pieces := preprocess (lex text.toList)
  let code := (pieces.filterMap codeOf).flatMap (expand (pieces.filterMap macroOf))
  match (items code).mapM readItem with
  | some (.using _ :: .kernel name params :: body) => some ⟨name, params, body⟩
  | _ => none

/-! ### Reading in parts -/

/-- The macros and statements of a part of a text that ends where a line and an item ends. -/
def readPart (macros : List (String × List Token)) (text : List Char) :
    Option (List (String × List Token) × List Stmt) :=
  let l := transduce lexStep [] text
  let p := transduce preprocessStep .start l.2
  let i := transduce itemStep [] ((p.2.filterMap codeOf).flatMap (expand macros))
  if l.1 = [] ∧ p.1 = .start ∧ i.1 = [] then
    (i.2.mapM readItem).map fun stmts => (p.2.filterMap macroOf, stmts)
  else none

section Parts

variable {macros m m' : List (String × List Token)} {text text' : List Char}
  {stmts stmts' : List Stmt}

/-- What `readPart` goes through. -/
theorem readPart_eq_some : readPart macros text = some (m, stmts) ↔ ∃ ts ps its,
    transduce lexStep [] text = ([], ts) ∧ transduce preprocessStep .start ts = (.start, ps) ∧
      transduce itemStep [] ((ps.filterMap codeOf).flatMap (expand macros)) = ([], its) ∧
      its.mapM readItem = some stmts ∧ ps.filterMap macroOf = m := by
  unfold readPart
  constructor
  · intro h
    simp only at h
    split_ifs at h with hends
    obtain ⟨hl, hp, hi⟩ := hends
    obtain ⟨_, hstmts, heq⟩ := Option.map_eq_some_iff.mp h
    obtain ⟨rfl, rfl⟩ := Prod.mk.inj heq
    exact ⟨_, _, _, Prod.ext hl rfl, Prod.ext hp rfl, Prod.ext hi rfl, hstmts, rfl⟩
  · rintro ⟨ts, ps, its, hl, hp, hi, hstmts, rfl⟩
    simp only [hl, hp, hi, hstmts, and_self, if_true, Option.map_some]

/-- Parts are read one after the other. -/
theorem readPart_append (h : readPart macros text = some (m, stmts))
    (h' : readPart macros text' = some (m', stmts')) :
    readPart macros (text ++ text') = some (m ++ m', stmts ++ stmts') := by
  obtain ⟨ts, ps, its, hl, hp, hi, hstmts, rfl⟩ := readPart_eq_some.mp h
  obtain ⟨ts', ps', its', hl', hp', hi', hstmts', rfl⟩ := readPart_eq_some.mp h'
  refine readPart_eq_some.mpr ⟨ts ++ ts', ps ++ ps', its ++ its', ?_, ?_, ?_, ?_, ?_⟩
  · rw [transduce_append, hl, hl']
  · rw [transduce_append, hp, hp']
  · rw [List.filterMap_append, List.flatMap_append, transduce_append, hi, hi']
  · rw [List.mapM_append, hstmts, hstmts']
    rfl
  · rw [List.filterMap_append]

/-- A text that is read with its own macros is a kernel. -/
theorem readKernel_of_readPart {text : String} {ts : List Token} {name : String}
    {params : List Param} {body : List Stmt}
    (h : readPart m text.toList = some (m, .using ts :: .kernel name params :: body)) :
    readKernel text = some ⟨name, params, body⟩ := by
  obtain ⟨toks, ps, its, hl, hp, hi, hstmts, hm⟩ := readPart_eq_some.mp h
  have hlex : lex text.toList = toks := by
    simp [lex, hl, endWord]
  unfold readKernel preprocess items
  simp only [hlex, hp, hm, hi, hstmts]

end Parts

/-! ### Lines and words -/

/-- The word that has been collected ends at a character that is none of its own. -/
theorem transduce_endWord {acc : List Char} (hacc : acc ≠ []) {c : Char}
    (hc : isWordChar c = false) (cs : List Char) :
    transduce lexStep acc (c :: cs)
      = ((transduce lexStep [] (c :: cs)).1,
        .word (String.ofList acc) :: (transduce lexStep [] (c :: cs)).2) := by
  simp [transduce, lexStep, hc, endWord, hacc]

/-- So it is with a word that ends with a number. -/
theorem transduce_number {acc : List Char} {n : ℕ} {c : Char} (hc : isWordChar c = false)
    (cs : List Char) :
    transduce lexStep acc ((toString n).toList ++ c :: cs)
      = ((transduce lexStep [] (c :: cs)).1,
        .word (String.ofList acc ++ toString n) :: (transduce lexStep [] (c :: cs)).2) := by
  have hne : acc ++ (toString n).toList ≠ [] := by simp
  have hword : String.ofList (acc ++ (toString n).toList) = String.ofList acc ++ toString n := by
    rw [String.ofList_append, String.ofList_toList]
  rw [transduce_append, transduce_word isWordChar_toString, transduce_endWord hne hc, hword]
  rfl

/-- A number between two texts. -/
theorem transduce_numbered {pre post acc : List Char} {ts us : List Token} (n : ℕ)
    (hpre : transduce lexStep [] pre = (acc, ts))
    (hhead : post.head?.any (fun c => !isWordChar c) = true)
    (hpost : transduce lexStep [] post = ([], us)) :
    transduce lexStep [] (pre ++ ((toString n).toList ++ post))
      = ([], ts ++ .word (String.ofList acc ++ toString n) :: us) := by
  obtain ⟨c, hc, hword⟩ := (Option.any_eq_true _ _).mp hhead
  obtain ⟨cs, rfl⟩ := List.head?_eq_some_iff.mp hc
  rw [transduce_append, hpre, transduce_number (by simpa using hword), hpost]

/-- A line that is no directive is code. -/
theorem transduce_codeLine {ts : List Token} (hhead : ts.head? ≠ some (.sym '#'))
    (hnl : ∀ t ∈ ts, t ≠ .sym '\n') :
    transduce preprocessStep .start (ts ++ [.sym '\n']) = (.start, ts.map .code) := by
  have hrest : ∀ us : List Token, (∀ t ∈ us, t ≠ .sym '\n') →
      transduce preprocessStep .code (us ++ [.sym '\n']) = (.start, us.map .code) := by
    intro us hus
    induction us with
    | nil => rfl
    | cons u us ih =>
      have hu := hus u (List.mem_cons_self ..)
      simp [transduce, preprocessStep, hu, ih fun t ht => hus t (List.mem_cons_of_mem _ ht)]
  cases ts with
  | nil => rfl
  | cons t ts =>
    have ht := hnl t (List.mem_cons_self ..)
    have hdirective : t ≠ .sym '#' := fun h => hhead (by simp [h])
    simp [transduce, preprocessStep, ht, hdirective,
      hrest ts fun u hu => hnl u (List.mem_cons_of_mem _ hu)]

/-- The code of a text that consists of whole lines without directives. -/
def HasCode (macros : List (String × List Token)) (text : List Char) (ts : List Token) : Prop :=
  ∃ us ps, transduce lexStep [] text = ([], us) ∧
    transduce preprocessStep .start us = (.start, ps) ∧
      (ps.filterMap codeOf).flatMap (expand macros) = ts ∧ ps.filterMap macroOf = []

namespace HasCode

variable {macros : List (String × List Token)} {text text' : List Char} {ts ts' : List Token}

theorem nil : HasCode macros [] [] := ⟨[], [], rfl, rfl, rfl, rfl⟩

/-- Texts are read one after the other. -/
theorem append (h : HasCode macros text ts) (h' : HasCode macros text' ts') :
    HasCode macros (text ++ text') (ts ++ ts') := by
  obtain ⟨us, ps, hl, hp, rfl, hm⟩ := h
  obtain ⟨us', ps', hl', hp', rfl, hm'⟩ := h'
  refine ⟨us ++ us', ps ++ ps', ?_, ?_, ?_, ?_⟩
  · rw [transduce_append, hl, hl']
  · rw [transduce_append, hp, hp']
  · rw [List.filterMap_append, List.flatMap_append]
  · rw [List.filterMap_append, hm, hm', List.append_nil]

theorem flatMap {γ : Type*} {f : γ → List Char} {g : γ → List Token} {l : List γ}
    (h : ∀ c ∈ l, HasCode macros (f c) (g c)) :
    HasCode macros (l.flatMap f) (l.flatMap g) := by
  induction l with
  | nil => exact nil
  | cons c l ih =>
    simp only [List.flatMap_cons]
    exact (h c (List.mem_cons_self ..)).append (ih fun d hd => h d (List.mem_cons_of_mem _ hd))

/-- A line in which no word is a macro. -/
theorem line (hl : transduce lexStep [] text = ([], ts ++ [.sym '\n']))
    (hhead : ts.head? ≠ some (.sym '#')) (hnl : ∀ t ∈ ts, t ≠ .sym '\n')
    (hexpand : ∀ t ∈ ts, expand macros t = [t]) : HasCode macros text ts := by
  have hcode : (ts.map Piece.code).filterMap codeOf = ts := by
    rw [List.filterMap_map]
    exact List.filterMap_some
  refine ⟨_, _, hl, transduce_codeLine hhead hnl, ?_, ?_⟩
  · rw [hcode, List.flatMap_congr hexpand, List.flatMap_singleton']
  · rw [List.filterMap_map, List.filterMap_eq_nil_iff]
    intro t _
    rfl

/-- The code is read item by item. -/
theorem readPart (h : HasCode macros text ts) {its : List (List Token × Char)}
    (hi : transduce itemStep [] ts = ([], its)) {stmts : List Stmt}
    (hstmts : its.mapM readItem = some stmts) :
    readPart macros text = some ([], stmts) := by
  obtain ⟨us, ps, hl, hp, rfl, hm⟩ := h
  exact readPart_eq_some.mpr ⟨us, ps, its, hl, hp, hi, hstmts, hm⟩

end HasCode

/-- The tokens that do not end an item are collected. -/
theorem transduce_item {acc ts : List Token}
    (h : ∀ t ∈ ts, t ≠ .sym ';' ∧ t ≠ .sym '\x7b' ∧ t ≠ .sym '\x7d') :
    transduce itemStep acc ts = (acc ++ ts, []) := by
  induction ts generalizing acc with
  | nil => simp [transduce]
  | cons t ts ih =>
    obtain ⟨h₁, h₂, h₃⟩ := h t (List.mem_cons_self ..)
    have hstep : itemStep acc t = (acc ++ [t], []) := by
      unfold itemStep
      split <;> simp_all
    simp [transduce, hstep, ih fun u hu => h u (List.mem_cons_of_mem _ hu)]

/-- The tokens between commas are collected. -/
theorem transduce_comma {acc ts : List Token} (h : .sym ',' ∉ ts) :
    transduce commaStep acc ts = (acc ++ ts, []) := by
  induction ts generalizing acc with
  | nil => simp [transduce]
  | cons t ts ih =>
    have ht : t ≠ .sym ',' := fun heq => h (by simp [heq])
    simp [transduce, commaStep, ht, ih fun hmem => h (List.mem_cons_of_mem _ hmem)]

/-- The parts of a list in which none has a comma. -/
theorem commaList_flatMap {l : List (List Token)} {last : List Token} (h : ∀ ts ∈ l, .sym ',' ∉ ts)
    (hlast : .sym ',' ∉ last) :
    commaList (l.flatMap (· ++ [.sym ',']) ++ last) = l ++ [last] := by
  have hparts : transduce commaStep [] (l.flatMap (· ++ [.sym ','])) =
      ([], l.flatMap fun ts => [ts]) := by
    refine transduce_flatMap _ _ _ fun ts hts => ?_
    rw [transduce_append, transduce_comma (h ts hts)]
    simp [transduce, commaStep]
  unfold commaList
  rw [transduce_append, hparts, transduce_comma hlast]
  simp

theorem mapM_eq_some {β γ : Type} {f : β → Option γ} {g : β → γ} {l : List β}
    (h : ∀ x ∈ l, f x = some (g x)) : l.mapM f = some (l.map g) := by
  induction l with
  | nil => rfl
  | cons x l ih =>
    simp [List.mapM_cons, h x (List.mem_cons_self ..),
      ih fun y hy => h y (List.mem_cons_of_mem _ hy)]

theorem decimal_toString (n : ℕ) : decimal (toString n) = n := by
  unfold decimal
  rw [show (toString n).toList = Nat.toDigits 10 n from Nat.toList_repr]
  exact Nat.ofDigitChars_ten_toDigits

/-! ### What a kernel does -/

/-- A meaning of the operations. -/
structure Interp (α : Type) where
  bin : Char → α → α → α
  neg : α → α
  call₁ : String → α → α
  call₂ : String → α → α → α
  literal : String → α

variable {α : Type}

/-- Literals begin with a digit. -/
def isLiteral (w : String) : Bool := (w.toList.head?.map Char.isDigit).getD false

/-- The value of an expression; `none` if it has a variable or an array that is not there. -/
def eval (I : Interp α) (var : String → Option α) (array : String → String → Option α) :
    Expr → Option α
  | .word w => if isLiteral w then some (I.literal w) else var w
  | .index a i => array a i
  | .call₁ f a => (eval I var array a).map (I.call₁ f)
  | .call₂ f a b => do
    let x ← eval I var array a
    let y ← eval I var array b
    some (I.call₂ f x y)
  | .neg a => (eval I var array a).map I.neg
  | .bin op a b => do
    let x ← eval I var array a
    let y ← eval I var array b
    some (I.bin op x y)

/-- One variable in the place of another. -/
def Expr.rename (x y : String) : Expr → Expr
  | .word w => .word (if w = x then y else w)
  | .index a i => .index a i
  | .call₁ f a => .call₁ f (a.rename x y)
  | .call₂ f a b => .call₂ f (a.rename x y) (b.rename x y)
  | .neg a => .neg (a.rename x y)
  | .bin op a b => .bin op (a.rename x y) (b.rename x y)

/-- The variables of an expression. -/
def Expr.vars : Expr → List String
  | .word w => if isLiteral w then [] else [w]
  | .index _ _ => []
  | .call₁ _ a => a.vars
  | .call₂ _ a b => a.vars ++ b.vars
  | .neg a => a.vars
  | .bin _ a b => a.vars ++ b.vars

theorem eval_rename (I : Interp α) (var : String → Option α) (array : String → String → Option α)
    {x y : String} (hx : isLiteral x = false) (hy : isLiteral y = false) (e : Expr) :
    eval I var array (e.rename x y) = eval I (fun w => if w = x then var y else var w) array e := by
  induction e with
  | word w =>
    by_cases hw : w = x
    · simp [Expr.rename, eval, hw, hx, hy]
    · simp [Expr.rename, eval, hw]
  | index a i => rfl
  | call₁ f a ih | neg a ih => simp [Expr.rename, eval, ih]
  | call₂ f a b iha ihb | bin op a b iha ihb => simp [Expr.rename, eval, iha, ihb]

/-- The arrays of an expression. -/
def Expr.arrays : Expr → List String
  | .word _ => []
  | .index a _ => [a]
  | .call₁ _ a => a.arrays
  | .call₂ _ a b => a.arrays ++ b.arrays
  | .neg a => a.arrays
  | .bin _ a b => a.arrays ++ b.arrays

/-- Only the variables and arrays that occur matter. -/
theorem eval_congr (I : Interp α) {var var' : String → Option α}
    {array array' : String → String → Option α} {e : Expr} (hvars : ∀ w ∈ e.vars, var w = var' w)
    (harrays : ∀ a ∈ e.arrays, array a = array' a) :
    eval I var array e = eval I var' array' e := by
  induction e with
  | word w =>
    by_cases hw : isLiteral w = true
    · simp [eval, hw]
    · have hvar := hvars w (by simp [Expr.vars, hw])
      simp [eval, hw, hvar]
  | index a i => simp [eval, harrays a (by simp [Expr.arrays])]
  | call₁ f a ih | neg a ih => simp [eval, ih hvars harrays]
  | call₂ f a b iha ihb | bin op a b iha ihb =>
    simp only [Expr.vars, Expr.arrays, List.mem_append] at hvars harrays
    simp [eval, iha (fun w hw => hvars w (.inl hw)) fun c hc => harrays c (.inl hc),
      ihb (fun w hw => hvars w (.inr hw)) fun c hc => harrays c (.inr hc)]

/-- An expression without arrays has a value where its variables have. -/
theorem eval_isSome (I : Interp α) {var : String → Option α} {array : String → String → Option α}
    {e : Expr} (hvars : ∀ w ∈ e.vars, (var w).isSome) (harrays : e.arrays = []) :
    (eval I var array e).isSome := by
  induction e with
  | word w =>
    by_cases hw : isLiteral w = true
    · simp [eval, hw]
    · simpa [eval, hw] using hvars w (by simp [Expr.vars, hw])
  | index a i => simp [Expr.arrays] at harrays
  | call₁ f a ih | neg a ih => simpa [eval] using ih hvars harrays
  | call₂ f a b iha ihb | bin op a b iha ihb =>
    simp only [Expr.vars, Expr.arrays, List.mem_append, List.append_eq_nil_iff] at hvars harrays
    obtain ⟨x, hx⟩ := Option.isSome_iff_exists.mp (iha (fun w hw => hvars w (.inl hw)) harrays.1)
    obtain ⟨y, hy⟩ := Option.isSome_iff_exists.mp (ihb (fun w hw => hvars w (.inr hw)) harrays.2)
    simp [eval, hx, hy]

/-- The only value that is found is the one that is found first. -/
theorem findSome?_eq_some_of_unique {β γ : Type*} {f : β → Option γ} {l : List β} {c : γ}
    (hmem : ∃ x ∈ l, f x = some c) (hunique : ∀ x ∈ l, ∀ d, f x = some d → d = c) :
    l.findSome? f = some c := by
  obtain ⟨x, hx, hfx⟩ := hmem
  have hsome : (l.findSome? f).isSome := List.findSome?_isSome_iff.mpr ⟨x, hx, by simp [hfx]⟩
  obtain ⟨d, hd⟩ := Option.isSome_iff_exists.mp hsome
  obtain ⟨y, hy, hfy⟩ := List.exists_of_findSome?_eq_some hd
  rw [hd, hunique y hy d hfy]

/-- The buffers, the number and the position that a thread is given. -/
structure Thread (α : Type) where
  buffer : ℕ → ℕ → α
  count : ℕ
  position : ℕ

/-- The element of a parameter that is read. -/
def arrayValue (params : List Param) (t : Thread α) (a i : String) : Option α :=
  params.findSome? fun
    | .input _ name buffer =>
      if name = a ∧ .position i ∈ params then some (t.buffer buffer t.position) else none
    | _ => none

/-- The buffer of a parameter that is written. -/
def outputBuffer (params : List Param) (a i : String) : Option ℕ :=
  params.findSome? fun
    | .output _ name buffer => if name = a ∧ .position i ∈ params then some buffer else none
    | _ => none

/-- The variables of the open blocks, the innermost first, what has been stored, and whether the
    thread has returned. -/
structure State (α : Type) where
  blocks : List (List (String × α)) := [[]]
  stores : List (ℕ × ℕ × α) := []
  returned : Bool := false

/-- The value of a variable. -/
def valueOf (blocks : List (List (String × α))) (name : String) : Option α :=
  blocks.findSome? (List.lookup name)

/-- The innermost variable of a name gets a value. -/
def setValue (name : String) (x : α) : List (List (String × α)) → Option (List (List (String × α)))
  | [] => none
  | b :: blocks =>
    if (b.lookup name).isSome then some (((name, x) :: b.filter (·.1 ≠ name)) :: blocks)
    else (setValue name x blocks).map (b :: ·)

/-- One statement of the body. -/
def exec (I : Interp α) (params : List Param) (t : Thread α) (s : State α) (st : Stmt) :
    Option (State α) :=
  if s.returned then some s
  else
    match st with
    | .opens => some { s with blocks := [] :: s.blocks }
    | .closes => some { s with blocks := s.blocks.tail }
    | .declare _ name e =>
      match s.blocks, eval I (valueOf s.blocks) (arrayValue params t) e with
      | b :: blocks, some x => some { s with blocks := ((name, x) :: b) :: blocks }
      | _, _ => none
    | .assign name e => do
      let x ← eval I (valueOf s.blocks) (arrayValue params t) e
      let blocks ← setValue name x s.blocks
      some { s with blocks }
    | .store a i e => do
      let x ← eval I (valueOf s.blocks) (arrayValue params t) e
      let buffer ← outputBuffer params a i
      some { s with stores := s.stores ++ [(buffer, t.position, x)] }
    | .returnIf a b =>
      if .position a ∈ params ∧ params.any (fun | .count name _ => name = b | _ => false) then
        some { s with returned := decide (t.position ≥ t.count) }
      else none
    | .using _ | .kernel _ _ => none

/-- What a thread stores: the buffer, the index and the value, in order. -/
def Kernel.run (k : Kernel) (I : Interp α) (t : Thread α) : Option (List (ℕ × ℕ × α)) :=
  (k.body.foldlM (exec I k.params t) {}).map State.stores

end MslText
