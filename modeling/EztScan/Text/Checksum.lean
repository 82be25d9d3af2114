/-!
# CRC-32

The cyclic redundancy check with the reflected polynomial `0xEDB88320`, a bit at a time. A check sum
is continued over several texts by starting from the sum of those before.
-/

namespace EztScan.Text

/-- One bit of the division: the remainder moves down, and the polynomial is taken off if a bit
falls out. -/
def crcShift (r : UInt32) : UInt32 :=
  if r &&& 1 = 1 then (r >>> 1) ^^^ 0xEDB88320 else r >>> 1

/-- Eight bits of the division. -/
def crcByte (r : UInt32) (b : UInt8) : UInt32 :=
  Nat.repeat crcShift 8 (r ^^^ b.toUInt32)

/-- The check sum of some bytes, continued from the check sum `start`. -/
def crcBytes (start : UInt32) (bytes : List UInt8) : UInt32 :=
  ~~~ (bytes.foldl crcByte (~~~ start))

/-- The bytes of a text in UTF-8. -/
def utf8 (s : String) : List UInt8 :=
  s.toList.flatMap String.utf8EncodeChar

/-- The check sum of a text, continued from `start`, of which only the lowest 32 bits count. An
empty text gives `start` back as it is. -/
def crc (start : Int) (s : String) : Int :=
  if s.isEmpty then start
  else (crcBytes (UInt32.ofNat (start % 4294967296).toNat) (utf8 s)).toNat

end EztScan.Text
