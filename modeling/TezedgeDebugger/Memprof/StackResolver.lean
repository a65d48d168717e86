import Mathlib.Logic.Function.Basic
import Mathlib.Data.List.Basic
import Mathlib.Algebra.Group.Int

/-!
# The symbol loader of `StackResolver::spawn`

`tezedge-memprof/src/stack.rs`. `spawn` starts a thread that every five seconds reads the
process map of the watched pid and, when the map has changed, loads the symbol table of each of
its files it has not tried before, then publishes the map; `try_resolve` and `resolve` read both
under the lock. `ProcessMap`, `SymbolTable` and the demanglers live outside the source tree: the
maps are any type with equality, `ProcessMap::files`, `ProcessMap::find`, `SymbolTable::name` and
`SymbolTable::find` are parameters, and what the system answers in one pass of the loop (the pid,
`ProcessMap::new`, each `SymbolTable::load`) is a `Tick`, `None` where the source gets an `Err`.
The sleep and the logging are left out.

`Loader.run_loads_once`: over every run, a file's table is settled by its one load attempt (a
loaded table is never replaced, a failed load never retried), a table is held only for a file that
was tried, and the published map is the last one read, each of whose files has been tried. Inside a
pass the last map read is published only at the end, but each lock section keeps `Loader.Readable`
(`Loader.Readable.loadFile`): a reader in `try_resolve` always finds tables only for tried files and
a map all of whose files were tried. `Loader.resolve_after_read`: after a pass that reads a map,
`resolve` at an address of one of its files gives what that file's one load attempt gave.
-/

namespace TezedgeDebugger.Memprof

variable {Map Table : Type}

/-- `StackResolver`: the symbol tables loaded so far, by file name, and the process map. -/
structure StackResolver (Map Table : Type) where
  files : String → Option Table
  map : Option Map

/-- `StackResolver::default()`. -/
def StackResolver.empty : StackResolver Map Table := ⟨fun _ => none, none⟩

/-- `try_resolve`: the file and offset the map places `address` at, the name of that file's table
and the symbol it gives for the offset. -/
def StackResolver.tryResolve (find : Map → Nat → Option (String × Nat)) (name : Table → String)
    (lookup : Table → Nat → Option String) (resolver : StackResolver Map Table) (address : Nat) :
    Option ((Nat × String) × Option String) := do
  let map ← resolver.map
  let (filename, offset) ← find map address
  let table ← resolver.files filename
  pure ((offset, name table), lookup table offset)

/-- `SymbolInfo`. `Hex32` (in `bpf_memprof`, outside the source tree) holds a `u32`. -/
structure SymbolInfo where
  offset : UInt32
  executable : String
  functionName : Option String

/-- `resolve`: `demangle` is the `cpp_demangle`/`rustc_demangle` chain; `offset as _` keeps the low
32 bits of the offset. -/
def StackResolver.resolve (find : Map → Nat → Option (String × Nat)) (name : Table → String)
    (lookup : Table → Nat → Option String) (demangle : String → String) (resolver : StackResolver Map Table)
    (address : Nat) : Option SymbolInfo := do
  let ((offset, filename), symbol) ← resolver.tryResolve find name lookup address
  pure ⟨UInt32.ofNat offset, filename, symbol.map demangle⟩

/-- `resolve` at an address the map places in a file: the symbol from that file's table, if one is
held. -/
theorem StackResolver.resolve_of_find {find : Map → Nat → Option (String × Nat)} {name : Table → String}
    {lookup : Table → Nat → Option String} {demangle : String → String} {resolver : StackResolver Map Table}
    {map : Map} {address : Nat} {filename : String} {offset : Nat} (published : resolver.map = some map)
    (placed : find map address = some (filename, offset)) :
    resolver.resolve find name lookup demangle address =
      (resolver.files filename).map fun table => ⟨UInt32.ofNat offset, name table, (lookup table offset).map demangle⟩ := by
  simp only [resolve, tryResolve, published, placed, Option.bind_eq_bind, Option.some_bind, Option.pure_def]
  cases resolver.files filename <;> rfl

/-- The thread's state: its locals `last_map` and `files` (the file names it has tried to load) and
the resolver it shares. -/
structure Loader (Map Table : Type) where
  lastMap : Option Map
  files : List String
  resolver : StackResolver Map Table

/-- What one pass of the loop gets from the system: the pid, `ProcessMap::new(pid)` and
`SymbolTable::load` of each file. -/
structure Tick (Map Table : Type) where
  pid : Nat
  processMap : Option Map
  load : String → Option Table

namespace Loader

/-- The thread as `spawn` starts it. -/
def spawn : Loader Map Table := ⟨none, [], StackResolver.empty⟩

/-- The body of `for filename in map.files()`: a file not tried before is loaded, its table stored
if the load succeeds, and the file marked as tried either way. -/
def loadFile (load : String → Option Table) (loader : Loader Map Table) (filename : String) : Loader Map Table :=
  if filename ∈ loader.files then loader
  else
    let resolver := match load filename with
      | some table => { loader.resolver with files := Function.update loader.resolver.files filename (some table) }
      | none => loader.resolver
    { loader with resolver, files := filename :: loader.files }

/-- One pass of the loop after its sleep. -/
def pass [DecidableEq Map] (mapFiles : Map → List String) (loader : Loader Map Table) (tick : Tick Map Table) :
    Loader Map Table :=
  if tick.pid ≠ 0 then
    match tick.processMap with
    | some map =>
      if some map ≠ loader.lastMap then
        let loader := (mapFiles map).foldl (loadFile tick.load) { loader with lastMap := some map }
        { loader with resolver := { loader.resolver with map := some map } }
      else loader
    | none => loader
  else loader

/-- The passes in order. -/
def run [DecidableEq Map] (mapFiles : Map → List String) (loader : Loader Map Table) (ticks : List (Tick Map Table)) :
    Loader Map Table :=
  ticks.foldl (pass mapFiles) loader

theorem run_append [DecidableEq Map] (mapFiles : Map → List String) (loader : Loader Map Table)
    (before after : List (Tick Map Table)) :
    loader.run mapFiles (before ++ after) = (loader.run mapFiles before).run mapFiles after := by
  rw [run, run, run, List.foldl_append]

theorem run_singleton [DecidableEq Map] (mapFiles : Map → List String) (loader : Loader Map Table)
    (tick : Tick Map Table) : loader.run mapFiles [tick] = loader.pass mapFiles tick := rfl

section LoadFile

variable (load : String → Option Table) (loader : Loader Map Table) (filename : String)

@[simp] theorem loadFile_lastMap : (loader.loadFile load filename).lastMap = loader.lastMap := by
  unfold loadFile
  split <;> rfl

@[simp] theorem loadFile_map : (loader.loadFile load filename).resolver.map = loader.resolver.map := by
  unfold loadFile
  split
  · rfl
  · split <;> rfl

/-- A file is tried once it has been through the loop body, and tried files stay tried. -/
theorem mem_loadFile_files (other : String) :
    other ∈ (loader.loadFile load filename).files ↔ other = filename ∨ other ∈ loader.files := by
  unfold loadFile
  split
  · rename_i tried
    constructor
    · exact .inr
    · rintro (rfl | member)
      · exact tried
      · exact member
  · simp

/-- The body leaves the table of every file tried before as it was. -/
theorem loadFile_files_of_mem {other : String} (tried : other ∈ loader.files) :
    (loader.loadFile load filename).resolver.files other = loader.resolver.files other := by
  unfold loadFile
  split
  · rfl
  · rename_i fresh
    have different : other ≠ filename := fun same => fresh (same ▸ tried)
    split <;> simp [Function.update_noteq different]

/-- A table is stored only for the file being tried. -/
theorem loadFile_files_isSome {other : String} (held : ((loader.loadFile load filename).resolver.files other).isSome) :
    other = filename ∨ (loader.resolver.files other).isSome := by
  unfold loadFile at held
  split at held
  · exact .inr held
  · split at held
    · by_cases same : other = filename
      · exact .inl same
      · simp only [Function.update_noteq same] at held
        exact .inr held
    · exact .inr held

end LoadFile

/-- What a reader taking the lock always finds: a table only for a file that was tried, and every
file of the published map tried. -/
structure Readable (mapFiles : Map → List String) (loader : Loader Map Table) : Prop where
  tried_of_table : ∀ filename, (loader.resolver.files filename).isSome → filename ∈ loader.files
  tried_of_map : ∀ map, loader.resolver.map = some map → ∀ filename ∈ mapFiles map, filename ∈ loader.files

/-- What every pass keeps: besides `Readable`, the published map is the last one read. -/
structure Sound (mapFiles : Map → List String) (loader : Loader Map Table) extends Readable mapFiles loader : Prop where
  published : loader.resolver.map = loader.lastMap

section Files

variable {mapFiles : Map → List String} (load : String → Option Table)

theorem mem_foldl_loadFile (filenames : List String) (loader : Loader Map Table) (other : String) :
    other ∈ (filenames.foldl (loadFile load) loader).files ↔ other ∈ filenames ∨ other ∈ loader.files := by
  induction filenames generalizing loader with
  | nil => simp
  | cons filename filenames ih =>
    rw [List.foldl_cons, ih, mem_loadFile_files, List.mem_cons]
    tauto

theorem foldl_loadFile_files_of_mem (filenames : List String) {loader : Loader Map Table} {other : String}
    (tried : other ∈ loader.files) :
    (filenames.foldl (loadFile load) loader).resolver.files other = loader.resolver.files other := by
  induction filenames generalizing loader with
  | nil => rfl
  | cons filename filenames ih =>
    rw [List.foldl_cons, ih ((mem_loadFile_files load loader filename other).mpr (.inr tried)),
      loadFile_files_of_mem load loader filename tried]

theorem foldl_loadFile_map (filenames : List String) (loader : Loader Map Table) :
    (filenames.foldl (loadFile load) loader).resolver.map = loader.resolver.map ∧
      (filenames.foldl (loadFile load) loader).lastMap = loader.lastMap := by
  induction filenames generalizing loader with
  | nil => exact ⟨rfl, rfl⟩
  | cons filename filenames ih =>
    rw [List.foldl_cons, (ih _).1, (ih _).2, loadFile_map, loadFile_lastMap]
    exact ⟨rfl, rfl⟩

/-- Each lock section of the loop body keeps what readers find. -/
theorem Readable.loadFile {loader : Loader Map Table} (readable : loader.Readable mapFiles) (filename : String) :
    (loader.loadFile load filename).Readable mapFiles where
  tried_of_table other held := by
    rcases loadFile_files_isSome load loader filename held with rfl | before
    · exact (mem_loadFile_files load loader other other).mpr (.inl rfl)
    · exact (mem_loadFile_files load loader filename other).mpr (.inr (readable.tried_of_table other before))
  tried_of_map map published other member := by
    rw [loadFile_map] at published
    exact (mem_loadFile_files load loader filename other).mpr (.inr (readable.tried_of_map map published other member))

theorem Readable.foldl {loader : Loader Map Table} (readable : loader.Readable mapFiles) (filenames : List String) :
    (filenames.foldl (Loader.loadFile load) loader).Readable mapFiles := by
  induction filenames generalizing loader with
  | nil => exact readable
  | cons filename filenames ih => exact ih (readable.loadFile load filename)

/-- A file not tried before holds, after the loop body, exactly what its load gave. -/
theorem Readable.loadFile_self {loader : Loader Map Table} (readable : loader.Readable mapFiles) {filename : String}
    (fresh : filename ∉ loader.files) : (loader.loadFile load filename).resolver.files filename = load filename := by
  have unheld : loader.resolver.files filename = none :=
    Option.not_isSome_iff_eq_none.mp fun held => fresh (readable.tried_of_table filename held)
  unfold Loader.loadFile
  rw [if_neg fresh]
  split
  · rename_i loaded
    simp [loaded]
  · rename_i failed
    rw [unheld, failed]

/-- Through the loop over a map's files, a file not tried before ends up with what its load in this
pass gave, however often the map lists it. -/
theorem Readable.foldl_files_of_fresh {loader : Loader Map Table} (readable : loader.Readable mapFiles)
    {filenames : List String} {filename : String} (listed : filename ∈ filenames) (fresh : filename ∉ loader.files) :
    (filenames.foldl (Loader.loadFile load) loader).resolver.files filename = load filename := by
  induction filenames generalizing loader with
  | nil => cases listed
  | cons first rest ih =>
    rw [List.foldl_cons]
    by_cases same : filename = first
    · subst same
      rw [foldl_loadFile_files_of_mem load rest ((mem_loadFile_files load loader filename filename).mpr (.inl rfl)),
        readable.loadFile_self load fresh]
    · refine ih (readable.loadFile load first) (List.mem_of_ne_of_mem same listed) fun tried => ?_
      exact ((mem_loadFile_files load loader first filename).mp tried).elim same fresh

theorem Sound.spawn : (spawn : Loader Map Table).Sound mapFiles :=
  ⟨⟨fun _ held => (by cases held), fun _ published => (by cases published)⟩, rfl⟩

end Files

variable [DecidableEq Map] (mapFiles : Map → List String)

/-- A pass adds tried files and leaves the table of every file tried before as it was. -/
theorem pass_stable (loader : Loader Map Table) (tick : Tick Map Table) {filename : String}
    (tried : filename ∈ loader.files) :
    filename ∈ (loader.pass mapFiles tick).files ∧
      (loader.pass mapFiles tick).resolver.files filename = loader.resolver.files filename := by
  unfold pass
  split_ifs
  all_goals try exact ⟨tried, rfl⟩
  split
  · split_ifs
    · exact ⟨(mem_foldl_loadFile _ _ _ _).mpr (.inr tried), foldl_loadFile_files_of_mem _ _ tried⟩
    · exact ⟨tried, rfl⟩
  · exact ⟨tried, rfl⟩

theorem Sound.pass {loader : Loader Map Table} (sound : loader.Sound mapFiles) (tick : Tick Map Table) :
    (loader.pass mapFiles tick).Sound mapFiles := by
  unfold Loader.pass
  split_ifs
  all_goals try exact sound
  split
  · rename_i map _
    split_ifs
    · have readable := Readable.foldl tick.load (⟨sound.tried_of_table, sound.tried_of_map⟩ :
        Readable mapFiles { loader with lastMap := some map }) (mapFiles map)
      have kept := foldl_loadFile_map tick.load (mapFiles map) { loader with lastMap := some map }
      refine ⟨⟨readable.tried_of_table, ?_⟩, kept.2.symm⟩
      rintro _ ⟨⟩ filename member
      exact (mem_foldl_loadFile _ _ _ _).mpr (.inl member)
    · exact sound
  · exact sound

theorem Sound.run {loader : Loader Map Table} (sound : loader.Sound mapFiles) (ticks : List (Tick Map Table)) :
    (loader.run mapFiles ticks).Sound mapFiles := by
  induction ticks generalizing loader with
  | nil => exact sound
  | cons tick ticks ih => exact ih (sound.pass mapFiles tick)

/-- A pass that reads a map publishes it, and leaves each of its files with the outcome of that
file's one load attempt: the earlier one if it was tried before, this pass's otherwise. -/
theorem Sound.pass_read {loader : Loader Map Table} (sound : loader.Sound mapFiles) {tick : Tick Map Table}
    (nonzero : tick.pid ≠ 0) {map : Map} (read : tick.processMap = some map) :
    (loader.pass mapFiles tick).resolver.map = some map ∧
      ∀ filename ∈ mapFiles map, (loader.pass mapFiles tick).resolver.files filename =
        if filename ∈ loader.files then loader.resolver.files filename else tick.load filename := by
  unfold Loader.pass
  rw [if_pos nonzero]
  split
  · rename_i found
    rw [read] at found
    cases found
    split_ifs with changed
    · refine ⟨rfl, fun filename listed => ?_⟩
      split_ifs with tried
      · exact foldl_loadFile_files_of_mem tick.load _ tried
      · exact Readable.foldl_files_of_fresh tick.load (⟨sound.tried_of_table, sound.tried_of_map⟩ :
          Readable mapFiles { loader with lastMap := some map }) listed tried
    · have published : loader.resolver.map = some map := sound.published.trans (not_not.mp changed).symm
      exact ⟨published, fun filename listed => by rw [if_pos (sound.tried_of_map map published filename listed)]⟩
  · rename_i unread
    cases unread.symm.trans read

theorem run_stable (loader : Loader Map Table) (ticks : List (Tick Map Table)) {filename : String}
    (tried : filename ∈ loader.files) :
    filename ∈ (loader.run mapFiles ticks).files ∧
      (loader.run mapFiles ticks).resolver.files filename = loader.resolver.files filename := by
  induction ticks generalizing loader with
  | nil => exact ⟨tried, rfl⟩
  | cons tick ticks ih =>
    obtain ⟨still, same⟩ := pass_stable mapFiles loader tick tried
    obtain ⟨later, kept⟩ := ih _ still
    exact ⟨later, kept.trans same⟩

/-- Over every run of the thread `spawn` starts, whatever pids, process maps and load outcomes the
system gives: a file tried in the first passes stays tried and keeps the table (or the absence of
one) its one load attempt gave, through all later passes; a table is held only for a file that was
tried; and the published map is the last one read, each of whose files has been tried. -/
theorem run_loads_once (before after : List (Tick Map Table)) :
    (∀ filename ∈ (spawn.run mapFiles before).files,
      filename ∈ (spawn.run mapFiles (before ++ after)).files ∧
        (spawn.run mapFiles (before ++ after)).resolver.files filename =
          (spawn.run mapFiles before).resolver.files filename) ∧
    (∀ filename, ((spawn.run mapFiles (before ++ after)).resolver.files filename).isSome →
      filename ∈ (spawn.run mapFiles (before ++ after)).files) ∧
    (spawn.run mapFiles (before ++ after)).resolver.map = (spawn.run mapFiles (before ++ after)).lastMap ∧
    ∀ map, (spawn.run mapFiles (before ++ after)).resolver.map = some map →
      ∀ filename ∈ mapFiles map, filename ∈ (spawn.run mapFiles (before ++ after)).files := by
  have sound : (spawn.run mapFiles (before ++ after)).Sound mapFiles := Sound.run mapFiles Sound.spawn _
  refine ⟨fun filename tried => ?_, sound.tried_of_table, sound.published, sound.tried_of_map⟩
  rw [run_append]
  exact run_stable mapFiles _ after tried

/-- Whatever the thread did before, after a pass in which the pid is set and the process map is
read, `resolve` at an address that map places in one of its files gives the symbol of that file's one
load attempt, made in an earlier pass if the file was tried there and in this pass otherwise: nothing
when that load failed, else the table's name and symbol, with the offset cut to its low 32 bits. -/
theorem resolve_after_read (find : Map → Nat → Option (String × Nat)) (name : Table → String)
    (lookup : Table → Nat → Option String) (demangle : String → String) (before : List (Tick Map Table))
    (tick : Tick Map Table) (nonzero : tick.pid ≠ 0) {map : Map} (read : tick.processMap = some map)
    (address : Nat) {filename : String} {offset : Nat} (placed : find map address = some (filename, offset))
    (listed : filename ∈ mapFiles map) :
    (spawn.run mapFiles (before ++ [tick])).resolver.resolve find name lookup demangle address =
      (if filename ∈ (spawn.run mapFiles before).files then (spawn.run mapFiles before).resolver.files filename
        else tick.load filename).map fun table =>
          ⟨UInt32.ofNat offset, name table, (lookup table offset).map demangle⟩ := by
  obtain ⟨published, files⟩ := (Sound.run mapFiles Sound.spawn before).pass_read mapFiles nonzero read
  rw [run_append, run_singleton, StackResolver.resolve_of_find published placed, files filename listed]

theorem resolve_after_read_sample :
    (1 : Nat) ≠ 0 ∧ (some 7 : Option Nat) = some 7 ∧
      (fun _ address => some ("libc.so", address) : Nat → Nat → Option (String × Nat)) 7 (2 ^ 32 + 5) =
        some ("libc.so", 2 ^ 32 + 5) ∧ "libc.so" ∈ (fun _ => ["libc.so"] : Nat → List String) 7 ∧
      (spawn.run (fun _ => ["libc.so"]) ([] ++ [⟨1, some 7, fun _ => some "libc"⟩])).resolver.resolve
          (fun _ address => some ("libc.so", address)) id (fun _ _ => none) id (2 ^ 32 + 5) =
        (if "libc.so" ∈ (spawn.run (fun _ => ["libc.so"]) ([] : List (Tick Nat String))).files then
            (spawn.run (fun _ => ["libc.so"]) ([] : List (Tick Nat String))).resolver.files "libc.so"
          else some "libc").map fun table =>
            (⟨UInt32.ofNat (2 ^ 32 + 5), id table, ((fun _ _ => none : String → Nat → Option String) table (2 ^ 32 + 5)).map id⟩ : SymbolInfo) :=
  ⟨by decide, rfl, rfl, List.mem_singleton_self _,
    resolve_after_read (fun _ => ["libc.so"]) (fun _ address => some ("libc.so", address)) id (fun _ _ => none) id []
      ⟨1, some 7, fun _ => some "libc"⟩ (by decide) rfl (2 ^ 32 + 5) rfl (List.mem_singleton_self _)⟩

/-- An offset past 4 GiB keeps its low 32 bits. -/
example : ((spawn.run (fun _ => ["libc.so"]) [(⟨1, some 7, fun _ => some "libc"⟩ : Tick Nat String)]).resolver.resolve
    (fun _ address => some ("libc.so", address)) id (fun _ _ => none) id (2 ^ 32 + 5)).map SymbolInfo.offset = some 5 := by
  decide

end Loader

end TezedgeDebugger.Memprof
