import Mathlib.Data.Rat.Defs
import Mathlib.Data.List.Basic

/-!
# The seeded generators (session-worker.js, lockstep.js)

`mulberry32` is the generator of the canonical sequence, of the per-command seeds and of the
draws inside a command; `deterministicBytes` and `hashNameSize` give file contents.  JS number
operators on 32-bit values are `UInt32` operations; `u / 4294967296` is the exact rational.
-/

namespace FlashVis

/-- The multiply-xor finish shared by `mulberry32` and `deterministicBytes`: from the advanced
state to the 32-bit output word. -/
def mulberryMix (s : UInt32) : UInt32 :=
  let t := (s ^^^ (s >>> 15)) * (1 ||| s)
  let t := (t + (t ^^^ (t >>> 7)) * (61 ||| t)) ^^^ t
  t ^^^ (t >>> 14)

/-- `mulberry32`: the next state and the drawn 32-bit word. -/
def mulberry32 (s : UInt32) : UInt32 × UInt32 :=
  let s := s + 0x6d2b79f5
  (s, mulberryMix s)

/-- The draw as the number in `[0, 1)` that the JS closure returns. -/
def unitOf (u : UInt32) : ℚ := (u.toNat : ℚ) / 4294967296

/-- `Math.floor(rng() * k)` for a natural `k`. -/
def scaleDraw (u : UInt32) (k : Nat) : Nat := u.toNat * k / 4294967296

/-- File contents from a seed: one byte per generator step. -/
def deterministicBytes (seed : UInt32) : Nat → List UInt8
  | 0 => []
  | n + 1 =>
    let s := seed + 0x6d2b79f5
    (mulberryMix s).toUInt8 :: deterministicBytes s n

/-- UTF-16 code units of a JS string (`charCodeAt`, and the order of `Array.sort`). -/
def utf16 (s : String) : List Nat :=
  s.toList.flatMap fun c =>
    if c.toNat < 0x10000 then [c.toNat]
    else [0xd800 + (c.toNat - 0x10000) / 0x400, 0xdc00 + (c.toNat - 0x10000) % 0x400]

/-- FNV-1a over the name's code units, then the size. -/
def hashNameSize (name : String) (size : Nat) : UInt32 :=
  let h := (utf16 name).foldl (fun (h : UInt32) c => (h ^^^ UInt32.ofNat c) * 0x01000193) 0x811c9dc5
  (h ^^^ UInt32.ofNat size) * 0x01000193

/-- `names.sort()`: ascending by UTF-16 code units. -/
def sortNames (l : List String) : List String :=
  l.mergeSort fun a b => !(decide (utf16 b < utf16 a))

/-- `n.toString(base).padStart(width, '0')` -/
def padDigits (base width n : Nat) : String :=
  let ds := Nat.toDigits base n
  String.ofList (List.replicate (width - ds.length) '0' ++ ds)

end FlashVis
