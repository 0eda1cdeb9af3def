import FlashVis.Lib.Pool
import FlashVis.Model.Runner

/-!
# The filesystem bindings (bindings/*/shim.c)

Five shims put the same `ff_*` functions over five libraries.  Every shim keeps two static pools
(`files[FF_MAX_FILES]`, `dirs[FF_MAX_DIRS]`) with a used-bitmap each; a handle is the index of a
descriptor.  `Library` is what the shims call on a descriptor; `Driver` holds what a shim adds to
the pool code that all five share: its error codes, its open modes and its own reads, seeks and
stats.  `Driver.call` is the module as the runner sees it.

`ShimState.touched` is a ghost: the descriptors handed to the library so far, in order.
-/

namespace FlashVis

abbrev FF_MAX_FILES : Nat := 8
abbrev FF_MAX_DIRS : Nat := 4

/-- A negative return code. -/
structure Err where
  code : Int
  neg : code < 0

/-- The error constants of the libraries' headers. -/
inductive ErrName where
  | invalid | nomem | notWritable | outOfFileDescs | badDescriptor
  deriving DecidableEq, Repr

/-- The open flags behind modes `'r'`, `'w'` (create or truncate) and `'a'`. -/
inductive Access where
  | read | replace | append
  deriving DecidableEq, Repr

/-- A library call: its value or the message of the trap, the library's memory afterwards and the
HAL calls it made. -/
abbrev Prim (τ α : Type) := τ → Flash → Except String α × τ × List HalOp

/-- What a shim calls. Descriptors are named by their pool index. -/
structure Library (τ : Type) where
  err : ErrName → Err
  openFile : Fin FF_MAX_FILES → String → Access → Prim τ (Except Err Unit)
  /-- at most `n` bytes from the current position -/
  readFile : Fin FF_MAX_FILES → (n : Nat) → Prim τ (Except Err (List UInt8))
  /-- the number of bytes written -/
  writeFile : Fin FF_MAX_FILES → List UInt8 → Prim τ (Except Err Nat)
  /-- a seek with offset and whence, returning the new position -/
  seekFile : Fin FF_MAX_FILES → Int → Nat → Prim τ (Except Err Nat)
  /-- FatFs `f_lseek`: an absolute seek -/
  lseek : Fin FF_MAX_FILES → Nat → Prim τ (Except Err Unit)
  /-- JesFS `fs_rewind` -/
  rewind : Fin FF_MAX_FILES → Prim τ (Except Err Unit)
  /-- JesFS `fs_read` without a sink: the number of bytes skipped -/
  skip : Fin FF_MAX_FILES → Nat → Prim τ (Except Err Nat)
  tell : Fin FF_MAX_FILES → τ → Nat
  size : Fin FF_MAX_FILES → τ → Nat
  /-- name and size of an open file, from the library's own descriptor -/
  statFile : Fin FF_MAX_FILES → Prim τ (Except Err (List UInt8 × Nat))
  closeFile : Fin FF_MAX_FILES → Prim τ (Except Err Unit)
  openDir : Fin FF_MAX_DIRS → String → Prim τ (Except Err Unit)
  /-- the next regular file of a directory, `none` at its end -/
  nextFile : Fin FF_MAX_DIRS → Prim τ (Except Err (Option (List UInt8 × Nat)))
  closeDir : Fin FF_MAX_DIRS → Prim τ Unit
  /-- FatFs only: the wear-levelling layer is up over the current chip (`wl_ensure`) -/
  ensure : Prim τ Bool
  format : Prim τ Int
  mount : Prim τ Int
  unmount : Prim τ Unit
  /-- the functions that use no pooled descriptor -/
  whole : FfCall → Prim τ FfRet

/-- A pooled descriptor. -/
inductive Desc where
  | file (h : Fin FF_MAX_FILES)
  | dir (h : Fin FF_MAX_DIRS)
  deriving DecidableEq, Repr

/-- The statics of a shim, with its library's memory. -/
structure ShimState (τ : Type) where
  geometry : Geometry
  lib : τ
  file_used : Pool FF_MAX_FILES := .empty
  dir_used : Pool FF_MAX_DIRS := .empty
  file_names : Fin FF_MAX_FILES → List UInt8 := fun _ => []
  g_mounted : Bool := false
  touched : List Desc := []

/-! ## Code over the library -/

/-- The chip's bytes after some HAL calls. -/
def Flash.after (g : Geometry) (ops : List HalOp) (f : Flash) : Flash :=
  ({ createNorDevice g with flash := f }.hals ops).1.flash

/-- Shim code that calls the library several times: each call sees the chip as the calls before
left it. -/
structure Work (τ : Type) where
  geometry : Geometry
  lib : τ
  flash : Flash
  hal : List HalOp := []

abbrev Prog (τ : Type) := ExceptT String (StateM (Work τ))

/-- One library call. -/
def Prim.prog {τ α : Type} (p : Prim τ α) : Prog τ α :=
  ExceptT.mk fun w =>
    let (v, lib, ops) := p w.lib w.flash
    (v, { w with lib := lib, flash := w.flash.after w.geometry ops, hal := w.hal ++ ops })

/-- `(int)x` of an unsigned 32-bit value. -/
def int32 (x : Nat) : Int := (x : Int).bmod 4294967296

/-- `store_basename` and `store_name`: the text after the last slash, cut to `cap - 1` bytes. -/
def storeBasename (cap : Nat) (path : String) : List UInt8 :=
  let base := ((cString path).reverse.takeWhile (· ≠ 0x2f)).reverse
  base.take (cap - 1)

/-- A name copied out with its NUL, cut to the buffer. -/
def copyName (cap : Nat) (name : List UInt8) : List UInt8 := name.take (cap - 1) ++ [0]

section Bodies
variable {τ : Type} (L : Library τ) (i : Fin FF_MAX_FILES)

/-- The fill loop of the FASTFFS, LittleFS and FatFs shims: read until `n` bytes are there, the
library has no more or fails. A turn that goes on has read a byte, so `n` turns are enough. -/
def fillLoop : (turns n : Nat) → (out : List UInt8) → Prog τ FfRet
  | 0, _, out => pure ⟨int32 out.length, out⟩
  | turns + 1, n, out => do
    match ← (L.readFile i n).prog with
    | .error e => pure ⟨e.code, out⟩
    | .ok [] => pure ⟨int32 out.length, out⟩
    | .ok got =>
      if n ≤ got.length then pure ⟨int32 (out ++ got).length, out ++ got⟩
      else fillLoop turns (n - got.length) (out ++ got)

def fillRead (n : Nat) : Prog τ FfRet := fillLoop L i n n []

/-- One library read, as the JesFS shim does it. -/
def oneRead (n : Nat) : Prog τ FfRet := do
  match ← (L.readFile i n).prog with
  | .error e => pure ⟨e.code, []⟩
  | .ok got => pure ⟨int32 got.length, got⟩

/-- SPIFFS: nothing is asked for zero bytes. (The end of the file comes as an empty read here:
the shim maps `SPIFFS_ERR_END_OF_OBJECT` to 0.) -/
def spiffsRead (n : Nat) : Prog τ FfRet := if n = 0 then pure ⟨0, []⟩ else oneRead L i n

/-- SPIFFS, LittleFS and FatFs report what the library wrote, FASTFFS and JesFS the length they
were given. -/
def writeCount (data : List UInt8) : Prog τ FfRet := do
  match ← (L.writeFile i data).prog with
  | .error e => pure ⟨e.code, []⟩
  | .ok n => pure ⟨int32 n, []⟩

def writeAll (data : List UInt8) : Prog τ FfRet := do
  match ← (L.writeFile i data).prog with
  | .error e => pure ⟨e.code, []⟩
  | .ok _ => pure ⟨int32 data.length, []⟩

/-- FASTFFS, LittleFS and SPIFFS hand offset and whence to the library. -/
def seekForward (off : Int) (whence : Nat) : Prog τ FfRet := do
  match ← (L.seekFile i off whence).prog with
  | .error e => pure ⟨e.code, []⟩
  | .ok pos => pure ⟨int32 pos, []⟩

/-- The target of the FatFs shim: `base + (FSIZE_t)(int64_t)off`, in unsigned 32 bits. -/
def fatTarget (base : Nat) (off : Int) : Nat := ((base + off) % 4294967296).toNat

/-- FatFs: an absolute seek to the target. -/
def fatSeek (off : Int) (whence : Nat) : Prog τ FfRet := do
  let w ← get
  let base? : Option Nat :=
    if whence = 0 then some 0
    else if whence = 1 then some (L.tell i w.lib)
    else if whence = 2 then some (L.size i w.lib)
    else none
  match base? with
  | none => pure ⟨-1, []⟩
  | some base =>
    match ← (L.lseek i (fatTarget base off)).prog with
    | .error e => pure ⟨e.code, []⟩
    | .ok () => let w ← get; pure ⟨int32 (L.tell i w.lib), []⟩

/-- JesFS: a target outside the file is refused; otherwise rewind when it lies behind, and skip
forward by reading. -/
def jesSeek (off : Int) (whence : Nat) : Prog τ FfRet := do
  let w ← get
  let base? : Option Nat :=
    if whence = 0 then some 0
    else if whence = 1 then some (L.tell i w.lib)
    else if whence = 2 then some (L.size i w.lib)
    else none
  match base? with
  | none => pure ⟨-139, []⟩
  | some base =>
    let target : Int := base + off
    if target < 0 ∨ (L.size i w.lib : Int) < target then pure ⟨-105, []⟩
    else
      let rewound ← if target < (L.tell i w.lib : Int) then (L.rewind i).prog else pure (.ok ())
      match rewound with
      | .error e => pure ⟨e.code, []⟩
      | .ok () =>
        let w ← get
        let delta := target.toNat - L.tell i w.lib
        if delta = 0 then pure ⟨int32 (L.tell i w.lib), []⟩
        else
          match ← (L.skip i delta).prog with
          | .error e => pure ⟨e.code, []⟩
          | .ok rc =>
            if rc ≠ delta then pure ⟨-105, []⟩
            else let w ← get; pure ⟨int32 (L.tell i w.lib), []⟩

/-- FASTFFS and SPIFFS: name and size come from the library. -/
def statLib (_ : List UInt8) (cap : Nat) : Prog τ FfRet := do
  match ← (L.statFile i).prog with
  | .error e => pure ⟨e.code, []⟩
  | .ok (name, size) => pure ⟨int32 size, copyName cap name⟩

/-- LittleFS: the size is asked for, the name was kept at the open. -/
def statSize (name : List UInt8) (cap : Nat) : Prog τ FfRet := do
  match ← (L.statFile i).prog with
  | .error e => pure ⟨e.code, []⟩
  | .ok (_, size) => pure ⟨int32 size, copyName cap name⟩

/-- FatFs: `f_size` reads the descriptor. -/
def statField (name : List UInt8) (cap : Nat) : Prog τ FfRet := do
  let w ← get
  pure ⟨int32 (L.size i w.lib), copyName cap name⟩

/-- JesFS: the length of a file still open for writing is what was written so far. -/
def jesStat (name : List UInt8) (cap : Nat) : Prog τ FfRet := do
  let w ← get
  let size := if L.size i w.lib = 0xffffffff then L.tell i w.lib else L.size i w.lib
  pure ⟨int32 size, copyName cap name⟩

end Bodies

/-! ## The drivers -/

/-- What distinguishes a shim. -/
structure Driver (τ : Type) where
  lib : Library τ
  badMode : Err
  noFile : Err
  badFile : Err
  noDir : Err
  modes : Nat → Option Access
  /-- size of a `file_names` entry -/
  nameCap : Nat
  read : Fin FF_MAX_FILES → Nat → Prog τ FfRet
  write : Fin FF_MAX_FILES → List UInt8 → Prog τ FfRet
  seek : Fin FF_MAX_FILES → Int → Nat → Prog τ FfRet
  stat : Fin FF_MAX_FILES → List UInt8 → Nat → Prog τ FfRet
  /-- `ff_mount` asks for the wear-levelling layer first -/
  needsWl : Bool := false
  /-- `g_mounted` after a format, from its value before and the return code -/
  formatted : Bool → Int → Bool := fun mounted _ => mounted

/-- Modes 0 and 1, and 2 where the library can append. -/
def openModes (canAppend : Bool) (mode : Nat) : Option Access :=
  if mode = 0 then some .read
  else if mode = 1 then some .replace
  else if mode = 2 ∧ canAppend then some .append
  else none

/-- A code that a shim writes out itself. -/
def Err.lit (n : Nat) (h : 0 < n := by decide) : Err := ⟨-n, by omega⟩

section Drivers
variable {τ : Type} (L : Library τ)

def fastffs : Driver τ where
  lib := L
  badMode := L.err .invalid
  noFile := L.err .nomem
  badFile := L.err .invalid
  noDir := L.err .nomem
  modes := openModes false
  nameCap := 1
  read := fillRead L
  write := writeAll L
  seek := seekForward L
  stat := statLib L

def littlefs : Driver τ where
  lib := L
  badMode := L.err .invalid
  noFile := L.err .nomem
  badFile := L.err .invalid
  noDir := L.err .nomem
  modes := openModes true
  nameCap := 256
  read := fillRead L
  write := writeCount L
  seek := seekForward L
  stat := statSize L

def fatfs : Driver τ where
  lib := L
  badMode := .lit 1
  noFile := .lit 1
  badFile := .lit 1
  noDir := .lit 1
  modes := openModes true
  nameCap := 256
  read := fillRead L
  write := writeCount L
  seek := fatSeek L
  stat := statField L
  needsWl := true

def jesfs : Driver τ where
  lib := L
  badMode := .lit 125
  noFile := .lit 117
  badFile := .lit 117
  noDir := .lit 117
  modes := openModes false
  nameCap := 22
  read := oneRead L
  write := writeAll L
  seek := jesSeek L
  stat := jesStat L
  formatted := fun _ rc => rc = 0

def spiffs : Driver τ where
  lib := L
  badMode := L.err .notWritable
  noFile := L.err .outOfFileDescs
  badFile := L.err .badDescriptor
  noDir := L.err .outOfFileDescs
  modes := openModes true
  nameCap := 1
  read := spiffsRead L
  write := writeCount L
  seek := seekForward L
  stat := statLib L
  formatted := fun _ _ => false

end Drivers

/-! ## The exported functions -/

namespace Driver
variable {τ : Type} (D : Driver τ)

/-- A return without a library call. -/
def ret (rc : Int) (s : ShimState τ) : FfStep (ShimState τ) := ⟨.ok ⟨rc, []⟩, s, []⟩

/-- Library code run on behalf of a shim: only the library's memory changes. -/
def runLib {α : Type} (p : Prog τ α) (s : ShimState τ) (f : Flash) :
    Except String α × ShimState τ × List HalOp :=
  let (v, w) := p.run ⟨s.geometry, s.lib, f, []⟩
  (v, { s with lib := w.lib }, w.hal)

/-- Library code run on a descriptor. -/
def onDesc {α : Type} (d : Desc) (p : Prog τ α) (s : ShimState τ) (f : Flash) :
    Except String α × ShimState τ × List HalOp :=
  runLib p { s with touched := s.touched ++ [d] } f

/-- `ff_open`: the mode is checked first, then the lowest free slot is filled by the library and
marked as used when that went well. -/
def ff_open (name : String) (mode : Nat) (s : ShimState τ) (f : Flash) : FfStep (ShimState τ) :=
  match D.modes mode with
  | none => ret D.badMode.code s
  | some access =>
    match s.file_used.first? with
    | none => ret D.noFile.code s
    | some h =>
      match onDesc (.file h) (D.lib.openFile h name access).prog s f with
      | (.error e, s, ops) => ⟨.error e, s, ops⟩
      | (.ok (.error e), s, ops) => ⟨.ok ⟨e.code, []⟩, s, ops⟩
      | (.ok (.ok ()), s, ops) =>
        ⟨.ok ⟨(h : Nat), []⟩, { s with
          file_used := s.file_used.take h
          file_names := Function.update s.file_names h (storeBasename D.nameCap name) }, ops⟩

/-- A function on an open file: a number that names no used slot is refused. -/
def onFile (h : Int) (body : Fin FF_MAX_FILES → ShimState τ → Prog τ FfRet) (s : ShimState τ)
    (f : Flash) : FfStep (ShimState τ) :=
  match s.file_used.slot? h with
  | none => ret D.badFile.code s
  | some i =>
    match onDesc (.file i) (body i s) s f with
    | (v, s, ops) => ⟨v, s, ops⟩

def ff_file_read (h : Int) (n : Nat) := D.onFile h fun i _ => D.read i n

def ff_file_write (h : Int) (data : List UInt8) := D.onFile h fun i _ => D.write i data

def ff_file_seek (h off : Int) (whence : Nat) := D.onFile h fun i _ => D.seek i off whence

def ff_file_stat (h : Int) (cap : Nat) := D.onFile h fun i s => D.stat i (s.file_names i) cap

/-- `ff_file_close`: the slot is freed whatever the library's close returns. -/
def ff_file_close (h : Int) (s : ShimState τ) (f : Flash) : FfStep (ShimState τ) :=
  match s.file_used.slot? h with
  | none => ret D.badFile.code s
  | some i =>
    match onDesc (.file i) (D.lib.closeFile i).prog s f with
    | (.error e, s, ops) => ⟨.error e, s, ops⟩
    | (.ok r, s, ops) =>
      let rc := match r with | .error e => e.code | .ok () => 0
      ⟨.ok ⟨rc, []⟩, { s with file_used := s.file_used.give i }, ops⟩

def ff_dir_open (pre : String) (s : ShimState τ) (f : Flash) : FfStep (ShimState τ) :=
  match s.dir_used.first? with
  | none => ret D.noDir.code s
  | some h =>
    match onDesc (.dir h) (D.lib.openDir h pre).prog s f with
    | (.error e, s, ops) => ⟨.error e, s, ops⟩
    | (.ok (.error e), s, ops) => ⟨.ok ⟨e.code, []⟩, s, ops⟩
    | (.ok (.ok ()), s, ops) =>
      ⟨.ok ⟨(h : Nat), []⟩, { s with dir_used := s.dir_used.take h }, ops⟩

/-- `ff_dir_read`: -1 at the end, -2 on an error or a handle that is not open. -/
def ff_dir_read (h : Int) (cap : Nat) (s : ShimState τ) (f : Flash) : FfStep (ShimState τ) :=
  match s.dir_used.slot? h with
  | none => ret (-2) s
  | some i =>
    match onDesc (.dir i) (D.lib.nextFile i).prog s f with
    | (.error e, s, ops) => ⟨.error e, s, ops⟩
    | (.ok (.error _), s, ops) => ⟨.ok ⟨-2, []⟩, s, ops⟩
    | (.ok (.ok none), s, ops) => ⟨.ok ⟨-1, []⟩, s, ops⟩
    | (.ok (.ok (some (name, size))), s, ops) => ⟨.ok ⟨int32 size, copyName cap name⟩, s, ops⟩

def ff_dir_close (h : Int) (s : ShimState τ) (f : Flash) : FfStep (ShimState τ) :=
  match s.dir_used.slot? h with
  | none => ret 0 s
  | some i =>
    match onDesc (.dir i) (D.lib.closeDir i).prog s f with
    | (.error e, s, ops) => ⟨.error e, s, ops⟩
    | (.ok (), s, ops) => ⟨.ok ⟨0, []⟩, { s with dir_used := s.dir_used.give i }, ops⟩

/-- `ff_format` -/
def ff_format (s : ShimState τ) (f : Flash) : FfStep (ShimState τ) :=
  match runLib D.lib.format.prog s f with
  | (.error e, s, ops) => ⟨.error e, s, ops⟩
  | (.ok rc, s, ops) => ⟨.ok ⟨rc, []⟩, { s with g_mounted := D.formatted s.g_mounted rc }, ops⟩

/-- `ff_mount` over the library: `none` when the wear-levelling layer does not come up. -/
def mountProg : Prog τ (Option Int) := do
  let up ← if D.needsWl then D.lib.ensure.prog else pure true
  if up then some <$> D.lib.mount.prog else pure none

/-- `ff_mount` -/
def ff_mount (s : ShimState τ) (f : Flash) : FfStep (ShimState τ) :=
  match runLib D.mountProg s f with
  | (.error e, s, ops) => ⟨.error e, s, ops⟩
  | (.ok none, s, ops) => ⟨.ok ⟨-1, []⟩, s, ops⟩
  | (.ok (some rc), s, ops) => ⟨.ok ⟨rc, []⟩, { s with g_mounted := decide (rc = 0) }, ops⟩

/-- `ff_unmount` -/
def ff_unmount (s : ShimState τ) (f : Flash) : FfStep (ShimState τ) :=
  if s.g_mounted then
    match runLib D.lib.unmount.prog s f with
    | (.error e, s, ops) => ⟨.error e, s, ops⟩
    | (.ok (), s, ops) => ⟨.ok ⟨0, []⟩, { s with g_mounted := false }, ops⟩
  else ret 0 s

/-- The exports of the module. -/
def call (c : FfCall) (s : ShimState τ) (f : Flash) : FfStep (ShimState τ) :=
  match c with
  | .format => D.ff_format s f
  | .mount => D.ff_mount s f
  | .unmount => D.ff_unmount s f
  | .open_ name mode => D.ff_open name mode s f
  | .fileRead h n => D.ff_file_read h n s f
  | .fileWrite h data => D.ff_file_write h data s f
  | .fileSeek h off whence => D.ff_file_seek h off whence s f
  | .fileStat h cap => D.ff_file_stat h cap s f
  | .fileClose h => D.ff_file_close h s f
  | .dirOpen pre => D.ff_dir_open pre s f
  | .dirRead h cap => D.ff_dir_read h cap s f
  | .dirClose h => D.ff_dir_close h s f
  | c =>
    match runLib (D.lib.whole c).prog s f with
    | (v, s, ops) => ⟨v, s, ops⟩

/-- The module over this driver, as the runner loads it. -/
def wasm (boot : Geometry → τ) (caps : Nat) (hasExport : String → Bool) : Wasm (ShimState τ) where
  load _ g := { geometry := g, lib := boot g }
  caps _ := caps
  hasExport _ := hasExport
  call := D.call

end Driver

end FlashVis
