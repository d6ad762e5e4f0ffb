/-
The command line of the shell (`main`, `handle_command` and `parse_command` in `fs/testfs.c`).

A line is cut by three calls of `strtok_r`: the name of the command, the rest up to a `\r` or `\n`, and the arguments in
that rest. A string is the list of its bytes, a pointer that may be null an `Option`; `strtok_r` returns null when it is
given no string. The row of arguments keeps what an earlier command has left in it, as in the code.

`parse_command` cuts off words while there is room for them and takes what is left as one more argument. It starts again
from the whole text when there was no word, so blanks alone are an argument, and so are two blanks behind the last
argument there is room for: `arguments_split_iff`.

Not modelled: the functions of the commands (`Commands`), options, the prompt, and the texts of `help`.
-/
import Mathlib.Tactic
import OsLab.Lib.Text
import OsLab.Lib.Tokens

namespace OsLab.Testfs.Shell

open OsLab.Lib

structure Cmd where
  name : List UInt8
  maxArgs : ℕ
deriving DecidableEq, Repr

def cmdtable : List Cmd :=
  [⟨str "help", 1⟩, ⟨str "cd", 2⟩, ⟨str "pwd", 1⟩, ⟨str "ls", 2⟩, ⟨str "lsr", 2⟩, ⟨str "create", 2⟩, ⟨str "stat", 2⟩,
    ⟨str "rm", 2⟩, ⟨str "mkdir", 2⟩, ⟨str "read", 4⟩, ⟨str "write", 4⟩, ⟨str "fsstat", 1⟩, ⟨str "quit", 1⟩]

/-- `MAX_ARGS` -/
def maxArgs : ℕ := 6

/-- `struct context` without the current directory -/
structure Context where
  nargs : ℕ
  cmd : ℕ → Option (List UInt8)

/-- the characters of `" \t\r\n"` -/
def isBlank (c : UInt8) : Bool := c = 32 ∨ c = 9 ∨ c = 13 ∨ c = 10

/-- the characters of `"\r\n"` -/
def isEol (c : UInt8) : Bool := c = 13 ∨ c = 10

/-- the token and the new `save` -/
def strtokR (s : Option (List UInt8)) (delim : UInt8 → Bool) (save : Option (List UInt8)) :
    Option (List UInt8) × Option (List UInt8) :=
  match s.or save with
  | none => (none, none)
  | some text =>
    match token delim text with
    | none => (none, some [])
    | some (t, rest) => (some t, some rest)

/-- the variables of `parse_command` -/
structure Locals where
  cmd : ℕ → Option (List UInt8)
  j : ℕ
  args : Option (List UInt8)
  save : Option (List UInt8)

/-- the loop over the arguments, for `max_args - j` -/
def argLoop : ℕ → Locals → Locals
  | 0, v => v
  | left + 1, v =>
    match strtokR v.args isBlank v.save with
    | (none, save) => { v with cmd := Function.update v.cmd v.j none, save := save }
    | (some t, save) => argLoop left ⟨Function.update v.cmd v.j (some t), v.j + 1, none, save⟩

def parseCommand (cmd : Cmd) (c : Context) (name : List UInt8) (args : Option (List UInt8)) : Context :=
  let v := argLoop (cmd.maxArgs - 1) ⟨Function.update c.cmd 0 (some name), 1, args, none⟩
  let last := (strtokR v.args isEol v.save).1
  let row := Function.update v.cmd v.j last
  let j := if last = none then v.j else v.j + 1
  ⟨j, fun i => if j + 1 ≤ i ∧ i ≤ maxArgs then none else row i⟩

/-- the command that is called, and its context -/
def handleCommand (c : Context) (name args : Option (List UInt8)) : Option (Cmd × Context) :=
  match name with
  | none => none
  | some name =>
    match cmdtable.find? fun cmd => name = cmd.name with
    | none => none
    | some cmd => some (cmd, parseCommand cmd c name args)

/-- a buffer as a string -/
def text (line : List UInt8) : List UInt8 := line.takeWhile (· ≠ 0)

/-- a turn of the loop in `main`; `line` is what `getline` has stored -/
def turn (c : Context) (line : List UInt8) : Option (Cmd × Context) :=
  if (text line).head? = some 35 then none
  else
    let (cname, save) := strtokR (some (text line)) isBlank none
    let (pargs, _) := strtokR none isEol save
    handleCommand c cname pargs

/-! ## The loop -/

theorem strtokR_none {s : List UInt8} {delim : UInt8 → Bool} {a b : Option (List UInt8)} (hs : a.or b = some s)
    (h : token delim s = none) : strtokR a delim b = (none, some []) := by
  rw [strtokR, hs]
  simp only [h]

theorem strtokR_some {s t rest : List UInt8} {delim : UInt8 → Bool} {a b : Option (List UInt8)} (hs : a.or b = some s)
    (h : token delim s = some (t, rest)) : strtokR a delim b = (some t, some rest) := by
  rw [strtokR, hs]
  simp only [h]

section

variable (left : ℕ) {row : ℕ → Option (List UInt8)} {j : ℕ} {args save : Option (List UInt8)} {s : List UInt8}

theorem argLoop_none (hs : args.or save = some s) (h : token isBlank s = none) :
    argLoop (left + 1) ⟨row, j, args, save⟩ = ⟨Function.update row j none, j, args, some []⟩ := by
  rw [argLoop, strtokR_none hs h]

theorem argLoop_some {t rest : List UInt8} (hs : args.or save = some s) (h : token isBlank s = some (t, rest)) :
    argLoop (left + 1) ⟨row, j, args, save⟩ = argLoop left ⟨Function.update row j (some t), j + 1,
    none, some rest⟩ := by
  rw [argLoop, strtokR_some hs h]

end

/-- what the loop has done from `j` on, with room for `left` words of `s` -/
structure Taken (left j : ℕ) (cmd : ℕ → Option (List UInt8)) (s : List UInt8) (v : Locals) : Prop where
  count : v.j = j + min left (words isBlank s).length
  rest : v.args.or v.save = some (afterTokens isBlank left s)
  row : ∀ i < min left (words isBlank s).length, v.cmd (j + i) = (words isBlank s)[i]?
  below : ∀ i < j, v.cmd i = cmd i

/-- **The loop takes the words** there is room for, and leaves the text behind them. -/
theorem argLoop_spec (left j : ℕ) (cmd : ℕ → Option (List UInt8)) (s : List UInt8) :
    Taken left j cmd s (argLoop left ⟨cmd, j, none, some s⟩) := by
  induction left generalizing j cmd s with
  | zero => exact ⟨by simp [argLoop], rfl, fun i hi => by simp at hi, fun _ _ => rfl⟩
  | succ left ih =>
    cases h : token isBlank s with
    | none =>
      have hwords := words_eq_nil.2 h
      have hafter : afterTokens isBlank (left + 1) s = [] := by rw [afterTokens, h]
      rw [argLoop_none left rfl h]
      refine ⟨by rw [hwords]; rfl, by rw [hafter]; rfl, fun i hi => ?_,
        fun i hi => Function.update_of_ne (by omega) _ _⟩
      rw [hwords] at hi
      simp at hi
    | some r =>
      obtain ⟨t, rest⟩ := r
      have hwords := words_token h
      have hafter : afterTokens isBlank (left + 1) s = afterTokens isBlank left rest := by rw [afterTokens, h]
      have htaken := ih (j + 1) (Function.update cmd j (some t)) rest
      rw [argLoop_some left rfl h]
      refine ⟨?_, by rw [htaken.rest, hafter], fun i hi => ?_, fun i hi => ?_⟩
      · rw [htaken.count, hwords, List.length_cons]
        omega
      · rw [hwords, List.length_cons] at hi
        rw [hwords]
        cases i with
        | zero =>
          exact (htaken.below j (Nat.lt_succ_self j)).trans (Function.update_self _ _ _)
        | succ i =>
          rw [List.getElem?_cons_succ, ← htaken.row i (by omega)]
          exact congrArg _ (by omega)
      · rw [htaken.below i (by omega), Function.update_of_ne (by omega)]

/-- the loop on the text of the arguments; the text is left as it is where no word has been found -/
theorem argLoop_args (left : ℕ) (cmd : ℕ → Option (List UInt8)) {args : List UInt8} (hargs : words isBlank args ≠ []) :
    Taken left 1 cmd args (argLoop left ⟨cmd, 1, some args, none⟩) := by
  cases left with
  | zero => exact ⟨by simp [argLoop], rfl, fun i hi => by simp at hi, fun _ _ => rfl⟩
  | succ left =>
    cases h : token isBlank args with
    | none => exact absurd (words_eq_nil.2 h) hargs
    | some r =>
      have hloop : argLoop (left + 1) ⟨cmd, 1, some args, none⟩ = argLoop (left + 1) ⟨cmd, 1, none, some args⟩ := by
        rw [argLoop_some left rfl h, argLoop_some left rfl h]
      rw [hloop]
      exact argLoop_spec (left + 1) 1 cmd args

/-! ## The arguments -/

section

variable {args : List UInt8}

/-- no text for the arguments -/
theorem parseCommand_none (cmd : Cmd) (c : Context) (name : List UInt8) : (parseCommand cmd c name none).nargs = 1 := by
  have hloop : ∀ left row, argLoop left ⟨row, 1, none, none⟩ = ⟨row, 1, none, none⟩ ∨
      argLoop left ⟨row, 1, none, none⟩ = ⟨Function.update row 1 none, 1, none, none⟩ := by
    intro left row
    cases left with
    | zero => exact Or.inl rfl
    | succ left => exact Or.inr rfl
  unfold parseCommand
  rcases hloop (cmd.maxArgs - 1) (Function.update c.cmd 0 (some name)) with heq | heq <;> rw [heq] <;> rfl

/-- a text of blanks is an argument -/
theorem parseCommand_blank (cmd : Cmd) (c : Context) (name : List UInt8) (hne : args ≠ [])
    (heol : ∀ x ∈ args, isEol x = false) (hwords : words isBlank args = []) :
    (parseCommand cmd c name (some args)).nargs = 2 ∧ (parseCommand cmd c name (some args)).cmd 1 = some args := by
  have hloop : ∀ left row, ∃ row' save, argLoop left ⟨row, 1, some args, none⟩ = ⟨row', 1, some args, save⟩ := by
    intro left row
    cases left with
    | zero => exact ⟨row, none, rfl⟩
    | succ left => exact ⟨_, _, argLoop_none left rfl (words_eq_nil.1 hwords)⟩
  obtain ⟨row, save, heq⟩ := hloop (cmd.maxArgs - 1) (Function.update c.cmd 0 (some name))
  have hlast : strtokR (some args) isEol save = (some args, some []) := strtokR_some rfl (token_run hne heol)
  simp only [parseCommand, heq, hlast]
  exact ⟨rfl, rfl⟩

/-- **Words as arguments**, and what is left behind them as one more. -/
theorem parseCommand_words (cmd : Cmd) (c : Context) (name : List UInt8) (heol : ∀ x ∈ args, isEol x = false)
    (hwords : words isBlank args ≠ [])
    {n : ℕ} (hn : n = min (cmd.maxArgs - 1) (words isBlank args).length)
    {rest : List UInt8} (hrest : rest = afterTokens isBlank (cmd.maxArgs - 1) args) :
    (parseCommand cmd c name (some args)).nargs = (if rest = [] then n + 1 else n + 2) ∧
      (∀ i < n, (parseCommand cmd c name (some args)).cmd (i + 1) = (words isBlank args)[i]?) ∧
      (rest ≠ [] → (parseCommand cmd c name (some args)).cmd (n + 1) = some rest) := by
  have htaken := argLoop_args (cmd.maxArgs - 1) (Function.update c.cmd 0 (some name)) hwords
  have hj : (argLoop (cmd.maxArgs - 1) ⟨Function.update c.cmd 0 (some name), 1, some args, none⟩).j = n + 1 := by
    rw [htaken.count, ← hn, Nat.add_comm]
  have htext := htaken.rest
  rw [← hrest] at htext
  by_cases hempty : rest = []
  · have hlast := strtokR_none htext (show token isEol rest = none by rw [hempty]; rfl)
    simp only [parseCommand, hlast, hj, if_pos]
    refine ⟨by rw [if_pos hempty], fun i hi => ?_, fun h => absurd hempty h⟩
    rw [if_neg (by omega), Function.update_of_ne (by omega), Nat.add_comm]
    exact htaken.row i (by rw [← hn]; exact hi)
  · have hnot : ∀ x ∈ rest, isEol x = false := fun x hx => heol x (afterTokens_mem (by rw [← hrest]; exact hx))
    have hlast := strtokR_some htext (token_run hempty hnot)
    simp only [parseCommand, hlast, hj, reduceCtorEq, if_false]
    refine ⟨by rw [if_neg hempty], fun i hi => ?_, fun _ => ?_⟩
    · rw [if_neg (by omega), Function.update_of_ne (by omega), Nat.add_comm]
      exact htaken.row i (by rw [← hn]; exact hi)
    · rw [if_neg (by omega), Function.update_self]

end

/-! ## Lines -/

/-- what is asked of the context of a command, for the words of its line -/
structure Splits (cmd : Cmd) (args : List (List UInt8)) (c : Context) : Prop where
  few : args.length ≤ cmd.maxArgs - 1 → c.nargs = args.length + 1 ∧ ∀ i < args.length, c.cmd (i + 1) = args[i]?
  many : cmd.maxArgs - 1 < args.length → cmd.maxArgs < c.nargs
  /-- no argument is blank -/
  solid : ∀ i, 1 ≤ i → i < c.nargs → ∃ arg, c.cmd i = some arg ∧ ∃ x ∈ arg, isBlank x = false

/-- the lines that are split so, by what follows the name: there is no text for the arguments, or it has more words than
the command has arguments, or it has words, there are none behind it, and at most one blank is behind the last argument
there is room for -/
def Accepted (cmd : Cmd) (rest : List UInt8) : Prop :=
  match token isEol rest with
  | none => True
  | some (args, tail) =>
    cmd.maxArgs - 1 < (words isBlank args).length ∨
      words isBlank args ≠ [] ∧ words isBlank tail = [] ∧ afterTokens isBlank (cmd.maxArgs - 1) args = []

theorem isBlank_of_isEol {x : UInt8} (h : isEol x = true) : isBlank x = true := by
  simp only [isEol, isBlank, decide_eq_true_eq] at h ⊢
  exact Or.inr (Or.inr h)

theorem exists_solid {s : List UInt8} (h : words isBlank s ≠ []) : ∃ x ∈ s, isBlank x = false := by
  by_contra hall
  refine h (words_eq_nil.2 (token_eq_none.2 fun x hx => ?_))
  by_contra hx'
  exact hall ⟨x, hx, by simpa using hx'⟩

theorem not_solid {s : List UInt8} (h : words isBlank s = []) : ¬ ∃ x ∈ s, isBlank x = false := by
  rintro ⟨x, hx, hfalse⟩
  rw [token_eq_none.1 (words_eq_nil.1 h) x hx] at hfalse
  cases hfalse

/-- every command has room for its own name -/
theorem cmdtable_maxArgs : ∀ cmd ∈ cmdtable, 1 ≤ cmd.maxArgs := by decide

/-- a name finds its own entry -/
theorem cmdtable_find : ∀ cmd ∈ cmdtable, (cmdtable.find? fun e => cmd.name = e.name) = some cmd := by decide

/-- no name is a comment -/
theorem cmdtable_comment : ∀ cmd ∈ cmdtable, cmd.name.head? ≠ some 35 := by decide

/-- the line of a command is handed to `parse_command` -/
theorem turn_eq {cmd : Cmd} (hcmd : cmd ∈ cmdtable) (c : Context) {line rest : List UInt8}
    (hname : token isBlank (text line) = some (cmd.name, rest)) :
    turn c line = some (cmd, parseCommand cmd c cmd.name ((token isEol rest).map Prod.fst)) := by
  have hcomment : (text line).head? ≠ some 35 := by
    intro hhead
    obtain ⟨hne, -, g, hg, htext⟩ := token_eq_some hname
    cases g with
    | cons x g =>
      have hx := hg x List.mem_cons_self
      rcases htext with ⟨htext, -⟩ | ⟨d, -, htext⟩
      all_goals
        rw [htext] at hhead
        rw [Option.some.inj hhead] at hx
        exact absurd hx (by decide)
    | nil =>
      refine cmdtable_comment cmd hcmd ?_
      obtain ⟨y, name, hcons⟩ := List.exists_cons_of_ne_nil hne
      rcases htext with ⟨htext, -⟩ | ⟨d, -, htext⟩
      all_goals
        rw [htext, hcons] at hhead
        rw [hcons]
        exact hhead
  have hargs : (strtokR none isEol (some rest)).1 = (token isEol rest).map Prod.fst := by
    cases h : token isEol rest with
    | none => rw [strtokR_none rfl h]; rfl
    | some r => rw [strtokR_some rfl h]; rfl
  rw [turn, if_neg hcomment, strtokR_some rfl hname]
  simp only [hargs, handleCommand, cmdtable_find cmd hcmd]

section

variable {cmd : Cmd} {c : Context} {name args tail rest : List UInt8}

/-- blanks alone are an argument -/
theorem not_splits_blank (hne : args ≠ []) (heol : ∀ x ∈ args, isEol x = false)
    (hwords : words isBlank args = []) (ts : List (List UInt8)) :
    ¬ Splits cmd ts (parseCommand cmd c name (some args)) := by
  intro hsplits
  obtain ⟨hnargs, hfirst⟩ := parseCommand_blank cmd c name hne heol hwords
  obtain ⟨arg, harg, hsolid⟩ := hsplits.solid 1 (le_refl 1) (by omega)
  rw [hfirst] at harg
  obtain rfl := Option.some.inj harg
  exact not_solid hwords hsolid

/-- more words than the command has arguments: the rest is one argument too many -/
theorem splits_many (heol : ∀ x ∈ args, isEol x = false) (hmany : cmd.maxArgs - 1 < (words isBlank args).length)
    (hmax : 1 ≤ cmd.maxArgs) : Splits cmd (words isBlank args ++ words isBlank tail)
    (parseCommand cmd c name (some args)) := by
  have hwords : words isBlank args ≠ [] := fun h => by rw [h] at hmany; cases hmany
  have hrest : words isBlank (afterTokens isBlank (cmd.maxArgs - 1) args) ≠ [] := by
    intro h
    rw [words_afterTokens, List.drop_eq_nil_iff] at h
    omega
  have hne : afterTokens isBlank (cmd.maxArgs - 1) args ≠ [] := fun h => hrest (by rw [h]; rfl)
  obtain ⟨hnargs, hcmd, hlast⟩ := parseCommand_words cmd c name heol hwords
    (n := cmd.maxArgs - 1) (by omega) rfl
  rw [if_neg hne] at hnargs
  refine ⟨fun hfew => ?_, fun _ => by omega, fun i h1 hi => ?_⟩
  · rw [List.length_append] at hfew
    omega
  · obtain ⟨i, rfl⟩ : ∃ k, i = k + 1 := ⟨i - 1, by omega⟩
    by_cases hin : i < cmd.maxArgs - 1
    · have hlt : i < (words isBlank args).length := by omega
      refine ⟨(words isBlank args)[i], by rw [hcmd i hin, List.getElem?_eq_getElem hlt], ?_⟩
      obtain ⟨hword, hall⟩ := words_mem (List.getElem_mem hlt)
      obtain ⟨x, w, hcons⟩ := List.exists_cons_of_ne_nil hword
      exact ⟨x, by rw [hcons]; exact List.mem_cons_self, hall x (by rw [hcons]; exact List.mem_cons_self)⟩
    · obtain rfl : i = cmd.maxArgs - 1 := by omega
      exact ⟨_, hlast hne, exists_solid hrest⟩

/-- words there is room for: nothing but one blank may be left behind them, and no word on the line -/
theorem splits_few_iff (heol : ∀ x ∈ args, isEol x = false) (hwords : words isBlank args ≠ [])
    (hfew : (words isBlank args).length ≤ cmd.maxArgs - 1) :
    Splits cmd (words isBlank args ++ words isBlank tail) (parseCommand cmd c name (some args)) ↔
      words isBlank tail = [] ∧ afterTokens isBlank (cmd.maxArgs - 1) args = [] := by
  obtain ⟨hnargs, hcmd, hlast⟩ := parseCommand_words cmd c name heol hwords
    (n := (words isBlank args).length) (by omega) rfl
  constructor
  · intro hsplits
    have hempty : afterTokens isBlank (cmd.maxArgs - 1) args = [] := by
      by_contra hne
      rw [if_neg hne] at hnargs
      obtain ⟨arg, harg, hsolid⟩ := hsplits.solid ((words isBlank args).length + 1) (by omega) (by omega)
      rw [hlast hne] at harg
      obtain rfl := Option.some.inj harg
      refine not_solid ?_ hsolid
      rw [words_afterTokens, List.drop_eq_nil_iff]
      exact hfew
    rw [if_pos hempty] at hnargs
    refine ⟨?_, hempty⟩
    by_contra htail
    have hpos := List.length_pos_of_ne_nil htail
    have hsome := List.length_pos_of_ne_nil hwords
    have hlen : (words isBlank args ++ words isBlank tail).length = (words isBlank args).length +
      (words isBlank tail).length :=
      List.length_append
    rcases Nat.lt_or_ge (cmd.maxArgs - 1) (words isBlank args ++ words isBlank tail).length with hmany | hfits
    · have := hsplits.many hmany
      omega
    · have := (hsplits.few hfits).1
      omega
  · rintro ⟨htail, hempty⟩
    rw [htail, List.append_nil]
    rw [if_pos hempty] at hnargs
    refine ⟨fun _ => ⟨hnargs, hcmd⟩, fun hmany => by omega, fun i h1 hi => ?_⟩
    obtain ⟨i, rfl⟩ : ∃ k, i = k + 1 := ⟨i - 1, by omega⟩
    have hlt : i < (words isBlank args).length := by omega
    refine ⟨(words isBlank args)[i], by rw [hcmd i hlt, List.getElem?_eq_getElem hlt], ?_⟩
    obtain ⟨hword, hall⟩ := words_mem (List.getElem_mem hlt)
    obtain ⟨x, w, hcons⟩ := List.exists_cons_of_ne_nil hword
    exact ⟨x, by rw [hcons]; exact List.mem_cons_self, hall x (by rw [hcons]; exact List.mem_cons_self)⟩

theorem parseCommand_splits_iff (hmax : 1 ≤ cmd.maxArgs) :
    Splits cmd (words isBlank rest) (parseCommand cmd c name ((token isEol rest).map Prod.fst)) ↔
    Accepted cmd rest := by
  unfold Accepted
  cases h : token isEol rest with
  | none =>
    have hblank : words isBlank rest = [] :=
      words_eq_nil.2 (token_eq_none.2 fun x hx => isBlank_of_isEol (token_eq_none.1 h x hx))
    have hnargs := parseCommand_none cmd c name
    rw [hblank]
    refine iff_of_true ⟨fun _ => ⟨hnargs, fun i hi => absurd hi (Nat.not_lt_zero i)⟩,
      fun hmany => ?_, fun i h1 hi => ?_⟩
      trivial
    · exact absurd hmany (Nat.not_lt_zero _)
    · change i < (parseCommand cmd c name none).nargs at hi
      omega
  | some r =>
    obtain ⟨args, tail⟩ := r
    obtain ⟨hne, heol, -⟩ := token_eq_some h
    rw [words_token_of_le (fun x => isBlank_of_isEol) h]
    change Splits cmd _ (parseCommand cmd c name (some args)) ↔ _
    by_cases hwords : words isBlank args = []
    · refine iff_of_false (not_splits_blank hne heol hwords _) ?_
      rintro (hmany | ⟨hsome, -⟩)
      · rw [hwords] at hmany
        cases hmany
      · exact hsome hwords
    · by_cases hmany : cmd.maxArgs - 1 < (words isBlank args).length
      · exact iff_of_true (splits_many heol hmany hmax) (Or.inl hmany)
      · rw [splits_few_iff heol hwords (by omega)]
        exact ⟨fun h => Or.inr ⟨hwords, h⟩, fun h => (h.resolve_left hmany).2⟩

end

/-- **The arguments of a command** are the words behind its name if and only if the line is accepted: for every entry of
the table and every line with its name, the entry is called with them, with too many arguments where there are more
words than it has room for, and with no blank one. -/
theorem arguments_split_iff (cmd : Cmd) (hcmd : cmd ∈ cmdtable) (c : Context) (line rest : List UInt8)
    (hname : token isBlank (text line) = some (cmd.name, rest)) :
    (∃ c', turn c line = some (cmd, c') ∧ Splits cmd (words isBlank rest) c') ↔ Accepted cmd rest := by
  rw [turn_eq hcmd c hname, ← parseCommand_splits_iff (cmdtable_maxArgs cmd hcmd)]
  constructor
  · rintro ⟨c', heq, hsplits⟩
    obtain ⟨-, rfl⟩ := Prod.mk.inj (Option.some.inj heq)
    exact hsplits
  · exact fun hsplits => ⟨_, rfl, hsplits⟩

/-- blanks before and between the arguments, and one behind them -/
theorem arguments_split_read :
    ∃ c', turn ⟨0, fun _ => none⟩ (str "  read \t f  0 12 \r\n") = some (⟨str "read", 4⟩, c') ∧
      Splits ⟨str "read", 4⟩ (words isBlank (str "\t f  0 12 \r\n")) c' :=
  (arguments_split_iff ⟨str "read", 4⟩ (by decide) ⟨0, fun _ => none⟩ (str "  read \t f  0 12 \r\n")
    (str "\t f  0 12 \r\n")
    (by decide)).2 (Or.inr ⟨by decide, by decide, by decide⟩)

/-- two blanks behind the name -/
theorem blanks_are_an_argument :
    token isBlank (text (str "ls  \n")) = some (str "ls", str " \n") ∧ words isBlank (str " \n") = [] ∧
      ¬ ∃ c', turn ⟨0, fun _ => none⟩ (str "ls  \n") = some (⟨str "ls", 2⟩, c') ∧ c'.nargs = 1 := by
  refine ⟨by decide, by decide, ?_⟩
  rintro ⟨c', heq, hnargs⟩
  have hturn := congrArg (Option.map fun r => r.2.nargs) heq
  have hcalled : (turn ⟨0, fun _ => none⟩ (str "ls  \n")).map (fun r => r.2.nargs) = some 2 := by decide
  rw [hcalled] at hturn
  have := Option.some.inj hturn
  change 2 = c'.nargs at this
  omega

end OsLab.Testfs.Shell
