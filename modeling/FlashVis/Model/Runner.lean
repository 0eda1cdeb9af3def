import FlashVis.Model.Device
import FlashVis.Model.Prng

/-!
# A filesystem module bound to a chip (runner.js)

The WASM module behind a session is a parameter: `Wasm σ` says what its exported `ff_*`
functions return, how they change the module's own memory (`σ`) and which HAL calls they make on
the bytes they find.  A call may also trap, after any of its HAL calls.  Everything that runner.js
adds (return-code checks, the write-amplification denominator `hostBytes`, the set of `tracked`
names, the closed flags of handle objects) is modelled on top.

`RCall` lists what the worker asks of a runner; `Runner.exec` runs one such call and returns its
value or error, the next runner and the device events that the call caused, in order.
-/

namespace FlashVis

/-- An exported `ff_*` function with its arguments, heap buffers already copied in. -/
inductive FfCall where
  | format | mount | unmount | gcStep
  | write (name : String) (data : List UInt8)
  | read (name : String) (cap : Nat)
  | delete (name : String)
  | exists_ (name : String)
  | stat (name : String) (cap : Nat)
  | mkdir (name : String)
  | list (cap : Nat)
  | open_ (name : String) (mode : Nat)
  | fileRead (h : Int) (n : Nat)
  | fileWrite (h : Int) (data : List UInt8)
  | fileSeek (h : Int) (off : Int) (whence : Nat)
  | fileStat (h : Int) (cap : Nat)
  | fileClose (h : Int)
  | dirOpen (pre : String)
  | dirRead (h : Int) (cap : Nat)
  | dirClose (h : Int)
  | committedFiles | committedBytes
  | sectorClasses
  | liveMap (pageSize : Nat)
  deriving DecidableEq, Repr

/-- A return code with the bytes the call left in its out buffer. -/
structure FfRet where
  rc : Int
  data : List UInt8 := []
  deriving DecidableEq, Repr

/-- What one call does: its return value (or the message of the trap), the module's memory
afterwards and the HAL calls made. -/
structure FfStep (σ : Type) where
  ret : Except String FfRet
  next : σ
  hal : List HalOp

/-- The loaded modules (`dist/<fsId>.mjs`), with memory of type `σ`. -/
structure Wasm (σ : Type) where
  load : String → Geometry → σ
  caps : String → Nat
  /-- optional exports present in the module of this id -/
  hasExport : String → String → Bool
  call : FfCall → σ → Flash → FfStep σ

def FF_CAP_GC : Nat := 1
def FF_CAP_SECTOR_CLASSES : Nat := 2
def FF_CAP_LIVE_MAP : Nat := 4

/-- A file or directory handle object: the pool index and its `closed` flag. -/
structure HandleObj where
  handle : Int
  closed : Bool := false
  deriving DecidableEq, Repr

/-- `createRunner`'s closure. `build` is the worker's build number it was created under. -/
structure Runner (σ : Type) where
  fsId : String
  build : Nat
  sys : σ
  device : Device
  hostBytes : Nat := 0
  tracked : List String := []
  handles : List HandleObj := []

/-- A value that a runner call returns. -/
inductive Val where
  | unit | null
  | bool (b : Bool)
  | num (i : Int)
  | bytes (data : List UInt8)
  | text (s : String)
  | file (name : String) (size : Int)
  | files (l : List (String × Int))
  | info (i : FsInfo)
  | handle (id : Nat)
  deriving DecidableEq, Repr

/-- `createRunner(geometry, fsId)` once the module is loaded and configured. -/
def createRunner {σ : Type} (W : Wasm σ) (fsId : String) (g : Geometry) (build : Nat) : Runner σ where
  fsId := fsId
  build := build
  sys := W.load fsId g
  device := createNorDevice g

/-- Value or error of a runner call, the runner afterwards, and the device events in order. -/
structure RunnerStep (σ : Type) where
  val : Except String Val
  next : Runner σ
  events : List DevEvent

/-- The lossy UTF-8 decoder of `TextDecoder`: a maximal ill-formed prefix becomes U+FFFD. -/
def decodeUtf8 : List UInt8 → (need : Nat) → (acc lo hi : Nat) → List Char
  | [], 0, _, _, _ => []
  | [], _ + 1, _, _, _ => [Char.ofNat 0xfffd]
  | b :: bs, 0, _, _, _ =>
    let n := b.toNat
    if n < 0x80 then Char.ofNat n :: decodeUtf8 bs 0 0 0x80 0xbf
    else if 0xc2 ≤ n ∧ n ≤ 0xdf then decodeUtf8 bs 1 (n - 0xc0) 0x80 0xbf
    else if 0xe0 ≤ n ∧ n ≤ 0xef then
      decodeUtf8 bs 2 (n - 0xe0) (if n = 0xe0 then 0xa0 else 0x80) (if n = 0xed then 0x9f else 0xbf)
    else if 0xf0 ≤ n ∧ n ≤ 0xf4 then
      decodeUtf8 bs 3 (n - 0xf0) (if n = 0xf0 then 0x90 else 0x80) (if n = 0xf4 then 0x8f else 0xbf)
    else Char.ofNat 0xfffd :: decodeUtf8 bs 0 0 0x80 0xbf
  | b :: bs, k + 1, acc, lo, hi =>
    let n := b.toNat
    if lo ≤ n ∧ n ≤ hi then
      let acc := acc * 64 + (n - 0x80)
      if k = 0 then Char.ofNat acc :: decodeUtf8 bs 0 0 0x80 0xbf
      else decodeUtf8 bs k acc 0x80 0xbf
    -- the byte that broke the sequence is decoded again as a lead byte
    else if n < 0x80 then Char.ofNat 0xfffd :: Char.ofNat n :: decodeUtf8 bs 0 0 0x80 0xbf
    else if 0xc2 ≤ n ∧ n ≤ 0xdf then Char.ofNat 0xfffd :: decodeUtf8 bs 1 (n - 0xc0) 0x80 0xbf
    else if 0xe0 ≤ n ∧ n ≤ 0xef then
      Char.ofNat 0xfffd ::
        decodeUtf8 bs 2 (n - 0xe0) (if n = 0xe0 then 0xa0 else 0x80) (if n = 0xed then 0x9f else 0xbf)
    else if 0xf0 ≤ n ∧ n ≤ 0xf4 then
      Char.ofNat 0xfffd ::
        decodeUtf8 bs 3 (n - 0xf0) (if n = 0xf0 then 0x90 else 0x80) (if n = 0xf4 then 0x8f else 0xbf)
    else Char.ofNat 0xfffd :: Char.ofNat 0xfffd :: decodeUtf8 bs 0 0 0x80 0xbf

/-- A `TextDecoder` drops one byte-order mark at the start of its input. -/
def dropBom : List UInt8 → List UInt8
  | 0xef :: 0xbb :: 0xbf :: data => data
  | data => data

/-- `dec.decode` -/
def decode (data : List UInt8) : String :=
  String.ofList (decodeUtf8 (dropBom data) 0 0 0x80 0xbf)

/-- The UTF-8 bytes of a character. -/
def encodeChar (c : Char) : List UInt8 :=
  let n := c.toNat
  let tail (k : Nat) : UInt8 := UInt8.ofNat (0x80 + n / 64 ^ k % 64)
  if n < 0x80 then [UInt8.ofNat n]
  else if n < 0x800 then [UInt8.ofNat (0xc0 + n / 64), tail 0]
  else if n < 0x10000 then [UInt8.ofNat (0xe0 + n / 4096), tail 1, tail 0]
  else [UInt8.ofNat (0xf0 + n / 262144), tail 2, tail 1, tail 0]

/-- `enc.encode` -/
def encode (s : String) : List UInt8 := s.toList.flatMap encodeChar

/-- The C string that `withCStr` passes on: it ends at the first NUL. -/
def cString (s : String) : List UInt8 := (encode s).takeWhile (· ≠ 0)

/-- `decodeCStr`: the bytes before the first NUL of a buffer of size `cap`. -/
def decodeCStr (cap : Nat) (data : List UInt8) : String :=
  decode ((data.take cap).takeWhile (· ≠ 0))

/-- What the worker asks of its runner. -/
inductive RCall where
  | format | mount | unmount
  | gcStep (steps : Nat)
  | write (name : String) (data : List UInt8)
  | writeSized (name : String) (size : Nat)
  | read (name : String)
  | readSize (name : String)
  | cat (name : String)
  | remove (name : String)
  | statRemove (name : String)
  | exists_ (name : String)
  | fsinfo
  | stat (name : String)
  | list
  | mkdir (name : String)
  | sectorClasses
  | liveMap
  | open_ (name : String) (mode : String)
  | openDir (pre : String)
  | fRead (id n : Nat)
  | fWrite (id : Nat) (data : List UInt8)
  | fSeek (id : Nat) (off : Int) (whence : String)
  | fStat (id : Nat)
  | fClose (id : Nat)
  | dRead (id : Nat)
  | dClose (id : Nat)
  deriving DecidableEq, Repr

namespace Runner
variable {σ : Type} (W : Wasm σ)

/-- One exported function: the module runs, then its HAL calls land on the chip. -/
def ff (c : FfCall) (r : Runner σ) : Except String FfRet × Runner σ × List DevEvent :=
  let st := W.call c r.sys r.device.flash
  let (dev, evs) := r.device.hals st.hal
  (st.ret, { r with sys := st.next, device := dev }, evs)

/-- `check(rc, what)` -/
def check (what : String) (rc : Int) : Except String Int :=
  if rc < 0 then .error s!"{what} failed: {rc}" else .ok rc

/-- A call whose negative return code throws. -/
def checked (c : FfCall) (what : String) (r : Runner σ) (ok : FfRet → Runner σ → Val × Runner σ) :
    RunnerStep σ :=
  match r.ff W c with
  | (.error e, r, evs) => ⟨.error e, r, evs⟩
  | (.ok ret, r, evs) =>
    match check what ret.rc with
    | .error e => ⟨.error e, r, evs⟩
    | .ok _ => let (v, r) := ok ret r; ⟨.ok v, r, evs⟩

/-- A call whose return code is only looked at. -/
def plain (c : FfCall) (r : Runner σ) (ok : FfRet → Val) : RunnerStep σ :=
  match r.ff W c with
  | (.error e, r, evs) => ⟨.error e, r, evs⟩
  | (.ok ret, r, evs) => ⟨.ok (ok ret), r, evs⟩

/-- Sequencing of runner calls: the second runs only when the first did not throw. -/
def bind (s : RunnerStep σ) (f : Val → Runner σ → RunnerStep σ) : RunnerStep σ :=
  match s.val with
  | .error e => ⟨.error e, s.next, s.events⟩
  | .ok v => let t := f v s.next; ⟨t.val, t.next, s.events ++ t.events⟩

def addTracked (name : String) (l : List String) : List String :=
  if name ∈ l then l else l ++ [name]

/-- `hasCap` -/
def hasCap (r : Runner σ) (sym : String) (bit : Nat) : Bool :=
  W.hasExport r.fsId sym && W.caps r.fsId &&& bit != 0

/-- `format()`: the chip is wiped (and reports it) before the module formats. -/
def format (r : Runner σ) : RunnerStep σ :=
  let r := { r with device := r.device.reset, hostBytes := 0, tracked := [] }
  let s := checked W .format "format" r fun ret r => (.num ret.rc, r)
  { s with events := .reset :: s.events }

def write (name : String) (data : List UInt8) (r : Runner σ) : RunnerStep σ :=
  checked W (.write name data) s!"write {name}" r fun _ r =>
    (.num data.length, { r with
      hostBytes := r.hostBytes + data.length, tracked := addTracked name r.tracked })

def read (name : String) (r : Runner σ) : RunnerStep σ :=
  let cap := r.device.geometry.sectorSize * r.device.geometry.sectorCount
  checked W (.read name cap) s!"read {name}" r fun ret r => (.bytes (ret.data.take ret.rc.toNat), r)

def remove (name : String) (r : Runner σ) : RunnerStep σ :=
  checked W (.delete name) s!"delete {name}" r fun ret r =>
    (.num ret.rc, { r with tracked := r.tracked.filter (· ≠ name) })

/-- `stat(name)`: `null` for a name that does not exist. -/
def stat (name : String) (r : Runner σ) : RunnerStep σ :=
  plain W (.stat name 128) r fun ret =>
    if ret.rc < 0 then .null else .file (decodeCStr 128 ret.data) ret.rc

/-- `readDirEntry`: one name in a 64-byte buffer, `null` at the end or on an error. -/
def readDirEntry (h : Int) (r : Runner σ) : RunnerStep σ :=
  plain W (.dirRead h 64) r fun ret =>
    if ret.rc < 0 then .null else .file (decodeCStr 64 ret.data) ret.rc

def gcStep (r : Runner σ) : RunnerStep σ :=
  if r.hasCap W "gc_step" FF_CAP_GC then
    checked W .gcStep "gc" r fun ret r => (.num ret.rc, r)
  else ⟨.ok .null, r, []⟩

/-- `gc(n)`: at least one step, the value of the last. -/
def gcSteps : Nat → Runner σ → RunnerStep σ
  | 0, r => gcStep W r
  | k + 1, r => bind (gcStep W r) fun _ r => gcSteps k r

def fsinfo (r : Runner σ) : RunnerStep σ :=
  bind (plain W .committedFiles r fun ret => .num ret.rc) fun files r =>
    plain W .committedBytes r fun ret =>
      match files with
      | .num f => .info ⟨(f % 4294967296).toNat, (ret.rc % 4294967296).toNat⟩
      | _ => .null

/-- `sectorClasses()` and `liveMap()`: `null` without the capability or on an error. -/
def classes (sym : String) (bit : Nat) (c : FfCall) (count : Nat) (r : Runner σ) : RunnerStep σ :=
  if r.hasCap W sym bit then
    plain W c r fun ret => if ret.rc < 0 then .null else .bytes (ret.data.take count)
  else ⟨.ok .null, r, []⟩

def sectorClasses (r : Runner σ) : RunnerStep σ :=
  classes W "sector_classes" FF_CAP_SECTOR_CLASSES .sectorClasses r.device.geometry.sectorCount r

def liveMap (r : Runner σ) : RunnerStep σ :=
  let g := r.device.geometry
  classes W "live_map" FF_CAP_LIVE_MAP (.liveMap g.pageSize)
    (g.sectorSize * g.sectorCount / g.pageSize) r

/-- `MODES[mode]` -/
def modeCode (mode : String) : Option Nat :=
  if mode = "r" then some 0 else if mode = "w" then some 1 else if mode = "a" then some 2 else none

/-- `WHENCE[whence]` -/
def whenceCode (w : String) : Option Nat :=
  if w = "set" then some 0 else if w = "cur" then some 1 else if w = "end" then some 2 else none

/-- A new handle object over the pool index a call returned. -/
def newHandle (ret : FfRet) (r : Runner σ) : Val × Runner σ :=
  (.handle r.handles.length, { r with handles := r.handles ++ [⟨ret.rc, false⟩] })

def open_ (name mode : String) (r : Runner σ) : RunnerStep σ :=
  match modeCode mode with
  | none => ⟨.error s!"open {name}: bad mode '{mode}'", r, []⟩
  | some m => checked W (.open_ name m) s!"open {name}" r newHandle

def openDir (pre : String) (r : Runner σ) : RunnerStep σ :=
  checked W (.dirOpen pre) s!"openDir {pre}" r newHandle

/-- A method of handle object `id`; the object carries the pool index. -/
def onHandle (id : Nat) (r : Runner σ) (f : HandleObj → RunnerStep σ) : RunnerStep σ :=
  match r.handles[id]? with
  | some o => f o
  | none => ⟨.error "not a handle", r, []⟩

/-- `close()`: nothing on an object already closed; the flag is set before the module is called. -/
def close (id : Nat) (r : Runner σ) (f : Int → Runner σ → RunnerStep σ) : RunnerStep σ :=
  onHandle id r fun o =>
    if o.closed then ⟨.ok .unit, r, []⟩
    else f o.handle { r with handles := r.handles.set id { o with closed := true } }

/-- Lines `name \t size` of `ff_list`. -/
def parseList (data : List UInt8) : List (String × Int) :=
  ((decode data).splitOn "\n").filterMap fun line =>
    if line = "" then none else
      match line.splitOn "\t" with
      | name :: size :: _ => some (name, size.toInt?.getD 0)
      | [name] => some (name, 0)
      | [] => none

/-- One request of the worker. -/
def exec (c : RCall) (r : Runner σ) : RunnerStep σ :=
  match c with
  | .format => format W r
  | .mount => checked W .mount "mount" r fun ret r => (.num ret.rc, r)
  | .unmount => plain W .unmount r fun _ => .unit
  | .gcStep steps => gcSteps W (steps - 1) r
  | .write name data => write W name data r
  | .writeSized name size =>
    bind (write W name (deterministicBytes (hashNameSize name size) size) r) fun _ r =>
      ⟨.ok (.file name size), r, []⟩
  | .read name => read W name r
  | .readSize name => bind (read W name r) fun v r =>
      match v with
      | .bytes b => ⟨.ok (.file name b.length), r, []⟩
      | _ => ⟨.ok .null, r, []⟩
  | .cat name => bind (read W name r) fun v r =>
      match v with
      | .bytes b => ⟨.ok (.text (decode b)), r, []⟩
      | _ => ⟨.ok .null, r, []⟩
  | .remove name => remove W name r
  | .statRemove name => bind (stat W name r) fun v r => bind (remove W name r) fun _ r =>
      match v with
      | .file _ size => ⟨.ok (.file name size), r, []⟩
      | _ => ⟨.ok (.file name 0), r, []⟩
  | .exists_ name => plain W (.exists_ name) r fun ret => .bool (ret.rc = 1)
  | .fsinfo => fsinfo W r
  | .stat name => stat W name r
  | .list => checked W (.list 65536) "list" r fun ret r =>
      (.files (parseList (ret.data.take ret.rc.toNat)), r)
  | .mkdir name => checked W (.mkdir name) s!"mkdir {name}" r fun _ r => (.bool true, r)
  | .sectorClasses => sectorClasses W r
  | .liveMap => liveMap W r
  | .open_ name mode => open_ W name mode r
  | .openDir pre => openDir W pre r
  | .fRead id n => onHandle id r fun o =>
      checked W (.fileRead o.handle n) s!"read handle {o.handle}" r fun ret r =>
        (.bytes (ret.data.take ret.rc.toNat), r)
  | .fWrite id data => onHandle id r fun o =>
      checked W (.fileWrite o.handle data) s!"write handle {o.handle}" r fun ret r => (.num ret.rc, r)
  | .fSeek id off whence => onHandle id r fun o =>
      match whenceCode whence with
      | none => ⟨.error s!"seek: bad whence '{whence}'", r, []⟩
      | some w => checked W (.fileSeek o.handle off w) s!"seek handle {o.handle}" r fun ret r =>
          (.num ret.rc, r)
  | .fStat id => onHandle id r fun o =>
      checked W (.fileStat o.handle 128) s!"stat handle {o.handle}" r fun ret r =>
        (.file (decodeCStr 128 ret.data) ret.rc, r)
  | .fClose id => close id r fun h r =>
      checked W (.fileClose h) s!"close handle {h}" r fun _ r => (.unit, r)
  | .dRead id => onHandle id r fun o => readDirEntry W o.handle r
  | .dClose id => close id r fun h r => plain W (.dirClose h) r fun _ => .unit

end Runner

end FlashVis
