import OsCore.Shell.CommandLine
import OsCore.Userprog.Names

/-!
# From a line to commands (`my_shell` in `shell/shell.c`)

`my_shell` executes what `cmd_parse` makes of a line, or, where the line has a `|` in
it, of each of its stages. `cmd_execute` compares `argv[0]` with the names of the
commands it has, and `sys_execv` counts the arguments up to the `NULL` behind them;
so a call is as both need it if there is a first word, and room in `argv` for the
`NULL` (`ShellCall.WellFormed`).

Nothing on the way asks for a word: a stage of blanks is executed with no words. And
`argv` is full with sixteen, while a line is turned down from eighteen on, a stage of
a pipeline not even then. `shell_well_formed_iff` says for which lines all is well.

The commands themselves are left out: a command runs in a process of its own or
inside the shell, and neither `cmd_line` nor `argv` changes.
-/

namespace OsCore.Shell

open Lib
open Userprog (maxPathLen)

/-! ## The code -/

/-- `'|'` -/
def bar : UInt8 := 124

/-- `' '` -/
def space : UInt8 := 32

/-- `strchr(str, ch)`, in the `size` bytes from `str` on. -/
def strchr (size : Nat) (mem : Mem) (str : Nat) (ch : UInt8) : Option (Option Nat) := do
  let i ← scan (fun c => c != 0 && c != ch) mem size str
  return if mem i = 0 then none else some i

/-- A call of `cmd_execute`, with the line its words are in. -/
structure ShellCall where
  argc : Int
  argv : Nat → Option Nat
  mem : Mem

/-- The calls made for a line, and the indices of `argv` stored to. -/
structure ShellRun where
  calls : List ShellCall
  stored : List Nat

/-- A pipeline from the stage at `each_cmd` on. -/
def pipeLoop : Nat → Mem → (Nat → Option Nat) → Nat → Option ShellRun
  | 0, _, _, _ => none
  | fuel + 1, mem, argv, eachCmd => do
    match ← strchr maxPathLen mem eachCmd bar with
    | some pipeSymbol =>
      let mem := Function.update mem pipeSymbol 0
      let (argc, st) ← cmdParse maxPathLen mem argv eachCmd space
      let run ← pipeLoop fuel st.mem st.argv (pipeSymbol + 1)
      return ⟨⟨argc, st.argv, st.mem⟩ :: run.calls, st.stored ++ run.stored⟩
    | none =>
      let (argc, st) ← cmdParse maxPathLen mem argv eachCmd space
      return ⟨[⟨argc, st.argv, st.mem⟩], st.stored⟩

/-- The body of `while (1)` in `my_shell` behind `readline`, with the line at the
start of `cmd_line` and `argv` as the line before it left it. -/
def myShell (cmdLine : Mem) (argv : Nat → Option Nat) : Option ShellRun :=
  if cmdLine 0 = 0 then some ⟨[], []⟩
  else do
    match ← strchr maxPathLen cmdLine 0 bar with
    | some _ => pipeLoop maxPathLen cmdLine argv 0
    | none =>
      let (argc, st) ← cmdParse maxPathLen cmdLine argv 0 space
      if argc = -1 then return ⟨[], st.stored⟩
      else return ⟨[⟨argc, st.argv, st.mem⟩], st.stored⟩

/-! ## Calls as they should be -/

/-- What `cmd_execute` and `sys_execv` rely on. -/
structure ShellCall.WellFormed (c : ShellCall) : Prop where
  argc_pos : 1 ≤ c.argc
  argc_le : c.argc ≤ 15
  name : c.argv 0 ≠ none
  terminated : c.argv c.argc.toNat = none

/-- All stores are inside `argv`, and all calls as they should be. -/
structure ShellRun.Safe (run : ShellRun) : Prop where
  stores : ∀ i ∈ run.stored, i < maxArgNr
  calls : ∀ c ∈ run.calls, c.WellFormed

/-- A stage with a word in it, but not too many. -/
def StageFits (stage : List UInt8) : Prop :=
  1 ≤ (words space stage).length ∧ (words space stage).length ≤ 15

instance (stage : List UInt8) : Decidable (StageFits stage) := inferInstanceAs (Decidable (_ ∧ _))

theorem space_ne_zero : space ≠ 0 := by decide

theorem bar_ne_zero : bar ≠ 0 := by decide

section

variable {mem : Mem} {argv : Nat → Option Nat} {each : Nat} {stage rest text : List UInt8}
  {ret : Int} {st : Parsing}

/-- **One stage**: the call made for it, and what was stored for it. -/
theorem call_safe_iff
    (h : Splits space stage (clearArgv 0 maxArgNr ⟨mem, argv, []⟩) each 0 ret st) :
    ((∀ i ∈ st.stored, i < maxArgNr) ∧ ShellCall.WellFormed ⟨ret, st.argv, st.mem⟩) ↔
      StageFits stage := by
  have hmax : maxArgNr = 16 := rfl
  have hret := h.ret_eq
  rw [Nat.zero_add] at hret
  constructor
  · intro hsafe
    obtain ⟨-, hpos, hle, -, -⟩ := hsafe
    dsimp only at hpos hle
    constructor
    · split at hret <;> omega
    · split at hret <;> omega
  · intro hfits
    obtain ⟨hpos, hle⟩ := hfits
    rw [if_pos (by omega)] at hret
    have hstart : 0 < (starts space stage).length := by rwa [length_starts]
    refine ⟨fun i hi => ?_, by dsimp only; omega, by dsimp only; omega, ?_, ?_⟩
    · rw [h.stored] at hi
      omega
    · dsimp only
      rw [h.argv_word (by omega) (List.getElem?_eq_getElem hstart)]
      exact Option.some_ne_none _
    · dsimp only
      rw [hret, Int.toNat_natCast]
      exact h.argv_null (Nat.le_refl _) (by omega)

/-- **A command alone**: a line with too many words is turned down, but they have been
stored by then. -/
theorem command_safe_iff
    (h : Splits space stage (clearArgv 0 maxArgNr ⟨mem, argv, []⟩) each 0 ret st) :
    (∃ run, (if ret = -1 then some ⟨[], st.stored⟩
      else some ⟨[⟨ret, st.argv, st.mem⟩], st.stored⟩) = some run ∧ ShellRun.Safe run) ↔
      StageFits stage := by
  have hmax : maxArgNr = 16 := rfl
  have hret := h.ret_eq
  rw [Nat.zero_add] at hret
  rw [← call_safe_iff h]
  by_cases hmany : ret = -1
  · rw [if_pos hmany]
    constructor
    · intro hrun
      obtain ⟨run, he, hsafe⟩ := hrun
      cases he
      have hover : maxArgNr ∈ st.stored := by
        rw [h.stored]
        split at hret <;> omega
      exact absurd (hsafe.stores _ hover) (Nat.lt_irrefl _)
    · intro hone
      have := hone.2.argc_pos
      dsimp only at this
      omega
  · rw [if_neg hmany]
    constructor
    · intro hrun
      obtain ⟨run, he, hsafe⟩ := hrun
      cases he
      exact ⟨hsafe.stores, hsafe.calls _ (List.mem_singleton_self _)⟩
    · intro hone
      exact ⟨_, rfl, hone.1, List.forall_mem_singleton.mpr hone.2⟩

theorem strchr_none (hmem : (mem.shift each).Holds text) (htext : bar ∉ text)
    (hsize : text.length < maxPathLen) : strchr maxPathLen mem each bar = some none := by
  have hend : mem (each + text.length) = 0 := hmem.2.1
  have hmem' : (mem.shift each).Holds (text ++ []) := by rwa [List.append_nil]
  rw [strchr, scan_word hmem' htext rfl hsize]
  dsimp only [Option.bind_eq_bind, Option.bind_some]
  rw [if_pos hend]
  rfl

theorem strchr_some (hmem : (mem.shift each).Holds (stage ++ bar :: rest)) (hstage : bar ∉ stage)
    (hsize : stage.length < maxPathLen) :
    strchr maxPathLen mem each bar = some (some (each + stage.length)) := by
  have hbar : mem (each + stage.length) = bar := hmem.drop.read (Nat.zero_le _)
  rw [strchr, scan_word hmem hstage rfl hsize]
  dsimp only [Option.bind_eq_bind, Option.bind_some]
  rw [hbar, if_neg bar_ne_zero]
  rfl

/-- **A pipeline**, stage by stage. -/
theorem pipeLoop_spec : ∀ {fuel : Nat} {mem : Mem} {argv : Nat → Option Nat} {each : Nat}
    {text : List UInt8}, (mem.shift each).Holds text → text.length < fuel →
    text.length < maxPathLen → ∃ run, pipeLoop fuel mem argv each = some run ∧
      (run.Safe ↔ ∀ stage ∈ text.splitOn bar, StageFits stage) := by
  intro fuel
  induction fuel with
  | zero =>
    intro mem argv each text _ hfuel
    omega
  | succ fuel ih =>
    intro mem argv each text hmem hfuel hsize
    rw [pipeLoop]
    by_cases htext : bar ∈ text
    · obtain ⟨stage, rest, rfl, hstage⟩ := List.eq_append_cons_of_mem htext
      simp only [List.length_append, List.length_cons] at hfuel hsize
      have hfirst : (Mem.shift (Function.update mem (each + stage.length) 0) each).Holds stage :=
        hmem.take (fun i hi => update_out (i := each + i) (by omega)) (Function.update_self _ _ _)
      have hshort : stage.length < maxPathLen := by omega
      obtain ⟨ret, st, hrun, h⟩ := cmdParse_spec argv space_ne_zero hfirst hshort
      have hrest : (st.mem.shift (each + stage.length + 1)).Holds rest := by
        have hdrop : ((mem.shift each).shift (stage ++ [bar]).length).Holds rest :=
          Mem.Holds.drop (by rwa [List.append_assoc])
        rw [Mem.shift_shift, List.length_append, List.length_singleton, ← Nat.add_assoc] at hdrop
        apply hdrop.congr
        intro i _
        have hframe := h.frame (each + stage.length + 1 + i) (by omega)
        rw [clearArgv_eq, Parsing.storeAll_mem] at hframe
        exact hframe.trans (update_out (by omega))
      obtain ⟨run, hloop, hsafe⟩ := @ih st.mem st.argv _ _ hrest (by omega) (by omega)
      rw [strchr_some hmem hstage (by omega)]
      dsimp only [Option.bind_eq_bind, Option.bind_some]
      rw [hrun]
      dsimp only [Option.bind_some]
      rw [hloop]
      refine ⟨_, rfl, ?_⟩
      rw [List.splitOn_append_cons_self_of_not_mem hstage, List.forall_mem_cons, ← call_safe_iff h,
        ← hsafe]
      constructor
      · intro hall
        have hcalls := List.forall_mem_cons.mp hall.calls
        exact ⟨⟨fun i hi => hall.stores i (List.mem_append_left _ hi), hcalls.1⟩,
          fun i hi => hall.stores i (List.mem_append_right _ hi), hcalls.2⟩
      · intro hboth
        obtain ⟨⟨hstores, hcall⟩, hrun'⟩ := hboth
        refine ⟨fun i hi => ?_, List.forall_mem_cons.mpr ⟨hcall, hrun'.calls⟩⟩
        rcases List.mem_append.mp hi with hi | hi
        · exact hstores i hi
        · exact hrun'.stores i hi
    · obtain ⟨ret, st, hrun, h⟩ := cmdParse_spec argv space_ne_zero hmem hsize
      rw [strchr_none hmem htext hsize]
      dsimp only [Option.bind_eq_bind, Option.bind_some]
      rw [hrun]
      refine ⟨_, rfl, ?_⟩
      rw [List.splitOn_eq_singleton htext, List.forall_mem_singleton, ← call_safe_iff h]
      exact ⟨fun hall => ⟨hall.stores, hall.calls _ (List.mem_singleton_self _)⟩,
        fun hone => ⟨hone.1, List.forall_mem_singleton.mpr hone.2⟩⟩

end

/-- **When the shell executes well-formed commands**: for the empty line, and for a
line each of whose stages has one to fifteen words. -/
theorem shell_well_formed_iff (cmdLine : Mem) (argv : Nat → Option Nat) (line : List UInt8)
    (hline : cmdLine.Holds line) (hlen : line.length < maxPathLen) :
    (∃ run, myShell cmdLine argv = some run ∧ run.Safe) ↔
      line = [] ∨ ∀ stage ∈ line.splitOn bar, StageFits stage := by
  have hmem : (cmdLine.shift 0).Holds line := by rwa [Mem.shift_zero]
  rw [myShell]
  by_cases hempty : line = []
  · have hfirst : cmdLine 0 = 0 := by
      rw [hempty] at hline
      exact hline.2.1
    rw [if_pos hfirst]
    exact iff_of_true ⟨_, rfl, fun _ h => absurd h List.not_mem_nil,
      fun _ h => absurd h List.not_mem_nil⟩ (Or.inl hempty)
  · have hpos : 0 < line.length := List.length_pos_of_ne_nil hempty
    have hfirst : cmdLine 0 ≠ 0 := hline.2.2 0 hpos
    rw [if_neg hfirst, or_iff_right hempty]
    by_cases hbar : bar ∈ line
    · obtain ⟨stage, rest, hsplit, hstage⟩ := List.eq_append_cons_of_mem hbar
      have hshort : stage.length < maxPathLen := by
        rw [hsplit, List.length_append] at hlen
        omega
      obtain ⟨run, hrun, hsafe⟩ := @pipeLoop_spec _ _ argv _ _ hmem hlen hlen
      rw [strchr_some (hsplit ▸ hmem) hstage hshort]
      dsimp only [Option.bind_eq_bind, Option.bind_some]
      rw [hrun, ← hsafe]
      constructor
      · intro h
        obtain ⟨run', he, h⟩ := h
        cases he
        exact h
      · intro h
        exact ⟨run, rfl, h⟩
    · obtain ⟨ret, st, hrun, h⟩ := cmdParse_spec argv space_ne_zero hmem hlen
      rw [strchr_none hmem hbar hlen]
      dsimp only [Option.bind_eq_bind, Option.bind_some]
      rw [hrun]
      dsimp only [Option.bind_some]
      rw [List.splitOn_eq_singleton hbar, List.forall_mem_singleton]
      exact command_safe_iff h

theorem holds_cString {line : List UInt8} (h : 0 ∉ line) : (Userprog.cString line).Holds line :=
  Mem.holds_iff.mpr ⟨fun _ _ => rfl, h⟩

/-- `ls|cat`: two stages of a word each. -/
theorem shell_well_formed_ls_cat : ∃ run,
    myShell (Userprog.cString [108, 115, 124, 99, 97, 116]) (fun _ => none) = some run ∧
      run.Safe :=
  (shell_well_formed_iff (Userprog.cString [108, 115, 124, 99, 97, 116]) (fun _ => none)
    [108, 115, 124, 99, 97, 116] (holds_cString (by decide)) (by decide)).mpr
      (Or.inr (by decide))

/-- A blank and enter: `cmd_execute` is called with no words. -/
theorem blank_line_executed : ¬ ∀ (cmdLine : Mem) (argv : Nat → Option Nat) (line : List UInt8),
    cmdLine.Holds line → line.length < maxPathLen →
      ∃ run, myShell cmdLine argv = some run ∧ run.Safe := by
  intro h
  obtain ⟨run, hrun, hsafe⟩ := h (Userprog.cString [32]) (fun _ => none) [32]
    (holds_cString (by decide)) (by decide)
  have hcalls : (myShell (Userprog.cString [32]) (fun _ => none)).map
      (fun run => run.calls.map ShellCall.argc) = some [0] := by decide +kernel
  rw [hrun, Option.map_some, Option.some.injEq] at hcalls
  have hmem : (0 : Int) ∈ run.calls.map ShellCall.argc := by
    rw [hcalls]
    exact List.mem_singleton_self _
  obtain ⟨c, hc, hargc⟩ := List.mem_map.mp hmem
  have hpos := (hsafe.calls c hc).argc_pos
  rw [hargc] at hpos
  exact absurd hpos (by decide)

end OsCore.Shell
