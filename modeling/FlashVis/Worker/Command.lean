import FlashVis.Worker.Playback

/-!
# Commands: the inner API and its operations (session-worker.js: buildLocalApi)

A command is arbitrary JS code run against the inner API.  Its code is the environment's: it may
call any API function at any time after it was started, also after its epoch is over.  What is
modelled is everything the API does: the synchronous part of each function (`ApiCall.enter`), the
operations that its promise runs one microtask each (`Task`), and the in-flight bookkeeping of
`wrapForQuiescence`.
-/

namespace FlashVis

/-- A call of an API function by a command's code. -/
inductive ApiCall where
  | writeFile (name : Option String) (size : Option Nat)
  | readFile (name : Option String)
  | deleteFile (name : Option String)
  | mkdir (path : String)
  | ls (pre : String)
  | getFiles (pre : String)
  | stat (name : String)
  | gc (n : Nat)
  | print (text : String)
  | prep (v : Bool)
  | format
  | text (s : String)
  | randomBytes (n : Nat)
  | help
  | raw (call : RCall) (lbl : String)
  deriving DecidableEq, Repr

/-- `HELP_TEXT` -/
def HELP_TEXT : String := String.intercalate "\n" [
  "POKES  (friendly, all paced, prefix with await):",
  "  writeFile(name?, size?)  ·  readFile(name?)  ·  deleteFile(name?)  → \x7bname,size\x7d   ·   stat(name) → \x7bname,size\x7d|null",
  "    (no-arg read/delete lands on a tracked file; deleteFile also takes a prior result, e.g. deleteFile(last))",
  "  ls(prefix?)   ·   getFiles(prefix?) → [\x7bname,size\x7d]   ·   mkdir(path)  (mkdir -p; no-op on flat FASTFFS)",
  "RAW fs.  (await to pace to simulated flash time):",
  "  fs.write(name, data)  ·  fs.read(name)  ·  fs.remove(name)  ·  fs.stat(name)  ·  fs.mkdir(name)  ·  fs.format()/mount()/unmount()",
  "HANDLES:  const f = await fs.open(name, 'r'|'w')  → f.read(n), f.write(bytes), f.seek(off, 'set'|'cur'|'end'), f.stat(), f.close()",
  "          const d = await fs.openDir(prefix?)  → d.read() → \x7bname,size\x7d|null, d.close()",
  "HELPERS:  gc(n=1)  ·  format()  ·  randomBytes(n)  ·  text(s) → bytes  ·  print(x)  ·  help()",
  "ONE LINE = ONE ATOMIC COMMAND (queued → live → done); an undeclared loop var (for (i=0;…)) stays local to the line.",
  "example:  let f = await writeFile(); for (i=0;i<5;i++) await writeFile('n'+i, 64); await deleteFile(f)"]

/-- `x.toFixed(digits)`: the decimal closest to the rational `x ≥ 0`, the larger one of two.  The
source rounds the double next to `x`, which may lie below the half (`0.35.toFixed(1)` is `"0.3"`). -/
def toFixed (digits : Nat) (x : ℚ) : String :=
  let n := (x * 10 ^ digits + 1 / 2).floor.toNat
  let whole := toString (n / 10 ^ digits)
  if digits = 0 then whole
  else
    let frac := toString (n % 10 ^ digits)
    whole ++ "." ++ String.ofList (List.replicate (digits - frac.length) '0') ++ frac

/-- `fmtTime` -/
def fmtTime (ns : ℚ) : String :=
  let ms := ns / 1000000
  if ms < 1000 then toFixed (if ms < 10 then 1 else 0) ms ++ " ms"
  else toFixed 2 (ms / 1000) ++ " s"

/-- Device operations of a batch by kind. -/
def countOps (batch : List DevEvent) : FlashOps where
  read := batch.countP fun | .read _ _ _ => true | _ => false
  prog := batch.countP fun | .prog _ _ _ => true | _ => false
  erase := batch.countP fun | .erase _ _ _ _ => true | _ => false

/-- `opLogFields`: the tape line of one executed op. -/
def opLogFields (entryIndex : Nat) (label : String) (batch : List DevEvent) : JournalItem :=
  let costNs := (batch.map DevEvent.ns).sum
  let c := countOps batch
  let part (k : Nat) (what : String) := if k = 0 then [] else [toString k ++ " " ++ what]
  let parts := part c.erase "erase" ++ part c.prog "prog" ++ part c.read "read"
  let tail := if parts = [] then "" else " · " ++ String.intercalate " " parts
  { entryIndex := entryIndex, kind := .op, text := label ++ " → " ++ fmtTime costNs ++ tail
    cost := some (costNs, c) }

namespace Cmd

/-- A draw from the command's generator. -/
def draw (c : Cmd) : UInt32 × Cmd :=
  let (s, u) := mulberry32 c.rng
  (u, { c with rng := s })

/-- `randomName` -/
def randomName (c : Cmd) : String × Cmd :=
  let (u, c') := c.draw
  ("f" ++ padDigits 36 3 c.nameSeq ++ "-" ++ padDigits 16 8 u.toNat ++ ".bin",
    { c' with nameSeq := c.nameSeq + 1 })

/-- `randomSize` -/
def randomSize (c : Cmd) : Nat × Cmd :=
  let (u, c) := c.draw
  (1024 + scaleDraw u (32 * 1024 - 1024), c)

/-- `randomBytes(n)` -/
def randomBytes : Nat → Cmd → List UInt8 × Cmd
  | 0, c => ([], c)
  | n + 1, c =>
    let (u, c) := c.draw
    let (bs, c) := randomBytes n c
    ((scaleDraw u 256).toUInt8 :: bs, c)

/-- `pickExisting`: one of the tracked names, in sorted order; `runner` is null before a build
has landed. -/
def pickExisting (names : Option (List String)) (c : Cmd) : Except String (String × Cmd) :=
  match names with
  | none => .error "Cannot read properties of null (reading 'names')"
  | some [] => .error "no files yet, write one first"
  | some (n :: ns) =>
    let (u, c) := c.draw
    .ok ((sortNames (n :: ns)).getD (scaleDraw u (ns.length + 1)) "", c)

/-- `resolveName` -/
def resolveName (arg : Option String) (names : Option (List String)) (c : Cmd) :
    Except String (String × Cmd) :=
  match arg with
  | some n => .ok (n, c)
  | none => c.pickExisting names

end Cmd

/-- What the synchronous part of an API function gives its caller. -/
inductive Sync where
  | promise (t : Task)
  | value (v : Val)
  | throws (msg : String)

/-- Label of a raw `fs.*` or handle operation. -/
def rawLabel (lbl : String) : RCall → String
  | .format => "format()"
  | .mount => "mount()"
  | .unmount => "unmount()"
  | .gcStep _ => "gc()"
  | .write n d => s!"write({n}, {d.length} B)"
  | .writeSized n sz => s!"write({n}, {sz} B)"
  | .read n | .cat n | .readSize n => s!"read({n})"
  | .remove n | .statRemove n => s!"delete({n})"
  | .exists_ n => s!"exists({n})"
  | .fsinfo => "fsinfo()"
  | .stat n => s!"stat({n})"
  | .list => "list()"
  | .mkdir n => s!"mkdir({n})"
  | .sectorClasses => "sectorClasses()"
  | .liveMap => "liveMap()"
  | .open_ n _ => s!"open({n})"
  | .openDir p => s!"openDir({p})"
  | .fRead _ _ => s!"read {lbl}"
  | .fWrite _ _ => s!"write {lbl}"
  | .fSeek _ _ _ => s!"seek {lbl}"
  | .fStat _ => s!"stat {lbl}"
  | .fClose _ => s!"close {lbl}"
  | .dRead _ => s!"dir.read {lbl}"
  | .dClose _ => s!"dir.close {lbl}"

/-- `fs.cat` keeps its own label. -/
def opLabel (lbl : String) : RCall → String
  | .cat n => s!"cat({n})"
  | c => rawLabel lbl c

/-- The API functions that count as a file operation when they are called. -/
def ApiCall.bumps : ApiCall → Bool
  | .writeFile _ _ | .readFile _ | .deleteFile _ | .mkdir _ | .ls _ | .getFiles _ | .stat _
  | .format | .raw .format _ | .raw .mount _ | .raw .unmount _ => true
  | _ => false

/-- Journal lines of `print`. -/
def printLines (entryIndex : Nat) (text : String) : List JournalItem :=
  (text.splitOn "\n").map fun line => { entryIndex := entryIndex, kind := .op, text := line }

/-- The lines that a call journals in its synchronous part. -/
def ApiCall.lines (entryIndex : Nat) : ApiCall → List JournalItem
  | .print msg => printLines entryIndex msg
  | .help => printLines entryIndex HELP_TEXT
  | _ => []

/-- The synchronous part of an API function as far as the command's closure goes: the draws it
takes, and the promise, value or exception its caller gets. `names` are the runner's tracked
names. -/
def ApiCall.enter (names : Option (List String)) (c : Cmd) : ApiCall → Sync × Cmd
  | .writeFile name size =>
    let (n, c) := match name with | some n => (n, c) | none => c.randomName
    let (sz, c) := match size with | some sz => (sz, c) | none => c.randomSize
    (.promise (.one s!"write({n}, {sz} B)" (.writeSized n sz)), c)
  | .readFile name =>
    match c.resolveName name names with
    | .error e => (.throws e, c)
    | .ok (n, c) => (.promise (.one s!"read({n})" (.readSize n)), c)
  | .deleteFile name =>
    match c.resolveName name names with
    | .error e => (.throws e, c)
    | .ok (n, c) => (.promise (.one s!"delete({n})" (.statRemove n)), c)
  | .mkdir path =>
    match (path.splitOn "/").filter (· ≠ "") with
    | [] => (.promise (.value (.text "ok")), c)
    | parts => (.promise (.mkdir "" parts), c)
  | .ls pre => (.promise (.scanOpen pre true false), c)
  | .getFiles pre => (.promise (.scanOpen pre false true), c)
  | .stat name => (.promise (.one s!"stat({name})" (.stat name)), c)
  | .gc n => (.promise (.one "gc()" (.gcStep n)), c)
  | .print _ => (.value .unit, c)
  | .prep _ => (.value .unit, c)
  | .format => (.promise .formatMount, c)
  | .text s => (.value (.bytes s.toUTF8.toList), c)
  | .randomBytes n => let (bs, c) := c.randomBytes n; (.value (.bytes bs), c)
  | .help => (.value (.text HELP_TEXT), c)
  | .raw call lbl => (.promise (.one (opLabel lbl call) call), c)

/-- A function that fails before its `bumpFileOp()` does not count. -/
def Sync.counts : Sync → Bool
  | .throws _ => false
  | _ => true

/-- The operation a task runs next, with its label. -/
def Task.op : Task → Option (String × RCall)
  | .one label call => some (label, call)
  | .value _ => none
  | .mkdir _ [] => none
  | .mkdir cur (p :: _) =>
    let cur := if cur = "" then p else cur ++ "/" ++ p
    some (s!"mkdir({cur})", .mkdir cur)
  | .scanOpen pre _ _ => some (s!"openDir({pre})", .openDir pre)
  | .scanRead dir _ _ _ => some ("dir.read()", .dRead dir)
  | .scanClose dir _ _ _ => some ("dir.close()", .dClose dir)
  | .formatMount => some ("format()", .format)

/-- What a task does with the value of its operation: journal lines, file operations counted on
the way, and the rest of the task or its result. -/
structure Continue where
  lines : List JournalItem := []
  bump : Bool := false
  next : Task ⊕ Val

/-- Ascending by name, as `getFiles` sorts. -/
def sortFiles (l : List (String × Int)) : List (String × Int) :=
  l.mergeSort fun a b => !(decide (utf16 b.1 < utf16 a.1))

/-- The continuation of a task after its operation gave `v`. -/
def Task.continue (entryIndex : Nat) (v : Val) : Task → Continue
  | .one _ _ => { next := .inr v }
  | .value u => { next := .inr u }
  | .mkdir _ [] => { next := .inr (.text "ok") }
  | .mkdir cur (p :: rest) =>
    let cur := if cur = "" then p else cur ++ "/" ++ p
    match rest with
    | [] => { next := .inr (.text "ok") }
    | rest => { next := .inl (.mkdir cur rest) }
  | .scanOpen _ printEach sorted =>
    match v with
    | .handle d => { next := .inl (.scanRead d [] printEach sorted) }
    | _ => { next := .inr v }
  | .scanRead d files printEach sorted =>
    match v with
    | .file name size =>
      { lines := if printEach then
          [{ entryIndex := entryIndex, kind := .op, text := s!"  {name}  {size} B" }] else []
        next := .inl (.scanRead d (files ++ [(name, size)]) printEach sorted) }
    | _ => { next := .inl (.scanClose d files printEach sorted) }
  | .scanClose _ files printEach sorted =>
    { lines := if printEach && files.isEmpty then
        [{ entryIndex := entryIndex, kind := .op, text := "  (empty)" }] else []
      next := .inr (.files (if sorted then sortFiles files else files)) }
  -- `await fs.format(); await fs.mount()`: the mount counts when it is called
  | .formatMount => { bump := true, next := .inl (.one "mount()" .mount) }

namespace Worker
variable {σ : Type}

/-- `op` after its work: the captured events are journalled and queued under the command's
entry. -/
def closeOp (index : Nat) (label : String) (w : Worker σ) : Worker σ :=
  let batch := w.captureBatch.getD []
  ({ w with captureBatch := none }.log (opLogFields index label batch)).enqueueBatch
    index batch false 0

/-- `op` of `buildLocalApi`: the guard, then the work with its device events captured. -/
def op (H : Host σ) (c : Cmd) (label : String) (call : RCall) (w : Worker σ) :
    Except String Val × Worker σ :=
  if c.gen ≠ w.gen then (.error "epoch superseded", w)
  else if w.runner.isNone then (.error "no runner", w)
  else
    match useRunner H call { w with captureBatch := some [] } with
    | (.error e, w) =>
      (.error e, { w with captureBatch := none }.log
        { entryIndex := c.index, kind := .op, text := label ++ " → " ++ e })
    | (.ok v, w) => (.ok v, w.closeOp c.index label)

/-- Lines pushed onto the journal. -/
def logAll (lines : List JournalItem) (w : Worker σ) : Worker σ :=
  { w with journal := w.journal.pushAll lines }

/-- Replace the closure of command `id`. -/
def setCmd (id : Nat) (c : Cmd) (w : Worker σ) : Worker σ := { w with cmds := w.cmds.set id c }

/-- `setPrep` when the call is `prep(v)`. -/
def applyPrep (call : ApiCall) (w : Worker σ) : Worker σ :=
  match call with
  | .prep v => w.setPrep v
  | _ => w

/-- What a call changes outside the closure of its command, before its promise runs. -/
def enterEffects (c : Cmd) (call : ApiCall) (counts : Bool) (w : Worker σ) : Worker σ :=
  let w := w.logAll (call.lines c.index)
  let w := w.applyPrep call
  if call.bumps && counts then w.bumpFileOp else w

/-- A wrapped API function is called (`wrapForQuiescence` around `ApiCall.enter`): a promise stays
in flight, a value or an exception schedules the quiescence check at once. -/
def callApi (id : Nat) (call : ApiCall) (w : Worker σ) : Worker σ :=
  match w.cmds[id]? with
  | none => w
  | some c =>
    let (s, c') := call.enter (w.runner.map (·.tracked)) c
    let w := w.enterEffects c call s.counts
    match s with
    | .promise t => w.setCmd id { c' with inFlight := c'.inFlight + 1, tasks := c'.tasks ++ [some t] }
    | .value v => w.setCmd id { c' with timers := c'.timers + 1, replies := c'.replies ++ [.ok v] }
    | .throws e =>
      w.setCmd id { c' with timers := c'.timers + 1, replies := c'.replies ++ [.error e] }

/-- The promise of call `j` settles with `r`: `onSettle` decrements and schedules the check. -/
def settleTask (j : Nat) (r : Except String Val) (c : Cmd) : Cmd :=
  { c with inFlight := c.inFlight - 1, timers := c.timers + 1, tasks := c.tasks.set j none
           replies := c.replies ++ [r] }

/-- One microtask of pending call `j` of command `id`: its next operation runs. -/
def runTask (H : Host σ) (id j : Nat) (w : Worker σ) : Worker σ :=
  match w.cmds[id]? with
  | none => w
  | some c =>
    match c.tasks[j]? with
    | some (some t) =>
      match t.op with
      | none => w.setCmd id (settleTask j (.ok (match t with | .value v => v | _ => .text "ok")) c)
      | some (label, call) =>
        match w.op H c label call with
        | (.error e, w) => w.setCmd id (settleTask j (.error e) c)
        | (.ok v, w) =>
          let k := t.continue c.index v
          let w := w.logAll k.lines
          let w := if k.bump then w.bumpFileOp else w
          match k.next with
          | .inl t' => w.setCmd id { c with tasks := c.tasks.set j (some t') }
          | .inr v => w.setCmd id (settleTask j (.ok v) c)
    | _ => w

/-- The command's own promise settles; a rejection is journalled. -/
def settleCmd (id : Nat) (err : Option String) (w : Worker σ) : Worker σ :=
  match w.cmds[id]? with
  | none => w
  | some c =>
    let w := match err with
      | some e => w.log { entryIndex := c.index, kind := .done, text := "command error: " ++ e }
      | none => w
    w.setCmd id { c with fnDone := true, timers := c.timers + 1 }

end Worker
end FlashVis
