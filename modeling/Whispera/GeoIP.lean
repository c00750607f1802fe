import Whispera.Lib.Prefix
import Whispera.Lib.Sorting

/-! The model of `common/split_tunnel/geoip.go`. Texts are lists of characters. -/

namespace Whispera
open Net

structure IpRange where
  lo : Block 16
  hi : Block 16
  deriving DecidableEq

def IpRange.has (r : IpRange) (a : Block 16) : Bool := !a.less r.lo && !r.hi.less a

def setBit (a : Block 16) (i : Nat) : Block 16 :=
  ⟨a.val.modify (i / 8) (· ||| 1 <<< UInt8.ofNat (7 - i % 8)), by rw [List.length_modify, a.length_val]⟩

def rangeOf (ipnet : IPNet) : Option IpRange :=
  match ipnet.ip.to16 with
  | none => none
  | some ip =>
    let (ones, bits) := maskSize ipnet.mask
    if bits = 0 then none
    else
      let ones := if bits = 32 then ones + 96 else ones
      some { lo := Block.copy 16 ip, hi := (List.range' ones (128 - ones)).foldl setBit (Block.copy 16 ip) }

def isSpace (c : Char) : Bool :=
  [9, 10, 11, 12, 13, 32, 0x85, 0xa0, 0x1680, 0x2028, 0x2029, 0x202f, 0x205f, 0x3000].contains c.toNat ||
    (0x2000 ≤ c.toNat && c.toNat ≤ 0x200a)

def trimSpaces (s : List Char) : List Char := ((s.dropWhile isSpace).reverse.dropWhile isSpace).reverse

def geoLine (line : List Char) : Option IpRange :=
  let line := trimSpaces line
  if line = [] ∨ line.head? = some '#' then none else (parseCIDR line).bind rangeOf

/-- What the `bufio.Scanner` on the first 8 MiB of the reader gives: lines, and an error if a line is too long
    or the reader fails. -/
structure Scan where
  lines : List (List Char)
  err : Option String := none

def IpRange.less (r s : IpRange) : Bool := r.hi.less s.hi

def geoIPMinNetworks : Nat := 100

structure GeoIPSet where
  ranges : Option (List IpRange) := none
  deriving DecidableEq

section
variable (sortRanges : Sorting.Slice IpRange IpRange.less)

def parseGeoIP (r : Scan) : Except String (List IpRange) :=
  match r.err with
  | some e => .error e
  | none => .ok (sortRanges.sort (r.lines.filterMap geoLine))

def GeoIPSet.load (g : GeoIPSet) (r : Scan) : Except String Nat × GeoIPSet :=
  match parseGeoIP sortRanges r with
  | .error e => (.error e, g)
  | .ok ranges =>
    if ranges.length < geoIPMinNetworks then
      (.error ("geoip: got " ++ toString ranges.length ++ " networks, refusing to replace a working list"), g)
    else (.ok ranges.length, { ranges := some ranges })

end

def GeoIPSet.len (g : GeoIPSet) : Nat :=
  match g.ranges with
  | none => 0
  | some ranges => ranges.length

def GeoIPSet.contains (g : GeoIPSet) (ip : IP) : Bool :=
  match ip.to16 with
  | none => false
  | some v16 =>
    let addr := Block.copy 16 v16
    match g.ranges with
    | none => false
    | some ranges =>
      let i := Sorting.search ranges.length fun i => ranges[i]?.any fun r => !r.hi.less addr
      ranges[i]?.any fun r => !addr.less r.lo

end Whispera
