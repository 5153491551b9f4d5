import LuaTune.Text.Search

/-! # Files as text -/

namespace LuaTune.Text

/-!
## Bytes and characters

Scripts are read one byte to a character, so that every file can be written back unchanged. Other
files are UTF-8; bytes that are not part of a character are passed over.
-/

abbrev Bytes := List UInt8

def charsOfBytes (bs : Bytes) : Chars := bs.map fun b => Char.ofNat b.toNat

def bytesOfChars (cs : Chars) : Bytes := cs.map fun c => UInt8.ofNat c.toNat

def utf8 (cs : Chars) : Bytes := (String.ofList cs).toUTF8.toList

def isContinuation (b : UInt8) : Bool := b.toNat / 64 == 2

def payload (b : UInt8) : Nat := b.toNat % 64

def charOf? (least code : Nat) : Option Char :=
  if least ≤ code ∧ code.isValidChar then some (Char.ofNat code) else none

def firstChar? : Bytes → Option (Char × Nat)
  | [] => none
  | a :: bs =>
    let n := a.toNat
    if n < 0x80 then some (Char.ofNat n, 0)
    else
      match bs with
      | b :: bs =>
        if !isContinuation b then none
        else if n / 32 == 6 then (charOf? 0x80 (n % 32 * 64 + payload b)).map (·, 1)
        else
          match bs with
          | c :: bs =>
            if !isContinuation c then none
            else if n / 16 == 14 then
              (charOf? 0x800 ((n % 16 * 64 + payload b) * 64 + payload c)).map (·, 2)
            else
              match bs with
              | d :: _ =>
                if !isContinuation d then none
                else if n / 8 == 30 then
                  (charOf? 0x10000
                    (((n % 8 * 64 + payload b) * 64 + payload c) * 64 + payload d)).map (·, 3)
                else none
              | [] => none
          | [] => none
      | [] => none

/-- The characters of some bytes, of which the first `skip` belong to a character already read.
Each byte that starts no character is passed over. -/
def utf8CharsFrom : Nat → Bytes → Chars
  | _, [] => []
  | skip + 1, _ :: bs => utf8CharsFrom skip bs
  | 0, b :: bs =>
    match firstChar? (b :: bs) with
    | some (c, n) => c :: utf8CharsFrom n bs
    | none => utf8CharsFrom 0 bs

def utf8Chars (bs : Bytes) : Chars := utf8CharsFrom 0 bs

def scriptText (bs : Bytes) : Chars := unifyNewlines (charsOfBytes bs)

def plainText (bs : Bytes) : Chars := unifyNewlines (utf8Chars bs)

def utf8Text? (bs : Bytes) : Option String := String.fromUTF8? ⟨bs.toArray⟩

/-! ## Strict decoding -/

inductive DecodeFlaw where
  | start
  | continuation
  | ending
deriving DecidableEq, Repr

/-- The bytes that are no part of any character: where they start, what the first one is, how many
they are, and why. A last character that is cut off is read by itself, so it starts at zero. -/
structure DecodeError where
  position : Nat
  first : UInt8
  count : Nat
  flaw : DecodeFlaw
deriving DecidableEq, Repr

def DecodeFlaw.text : DecodeFlaw → String
  | .start => "invalid start byte"
  | .continuation => "invalid continuation byte"
  | .ending => "unexpected end of data"

def DecodeError.message (e : DecodeError) : String :=
  let what := if e.count = 1 then
      "byte 0x" ++ String.ofList (hexText 2 e.first.toNat) ++ " in position " ++ toString e.position
    else
      "bytes in position " ++ toString e.position ++ "-" ++ toString (e.position + e.count - 1)
  "'utf-8' codec can't decode " ++ what ++ ": " ++ e.flaw.text

def followers? (b : UInt8) : Option Nat :=
  let n := b.toNat
  if n < 0x80 then some 0
  else if 0xc2 ≤ n ∧ n ≤ 0xdf then some 1
  else if 0xe0 ≤ n ∧ n ≤ 0xef then some 2
  else if 0xf0 ≤ n ∧ n ≤ 0xf4 then some 3
  else none

def mayFollow (first b : UInt8) : Bool :=
  let n := b.toNat
  isContinuation b &&
    match first.toNat with
    | 0xe0 => 0xa0 ≤ n
    | 0xed => n ≤ 0x9f
    | 0xf0 => 0x90 ≤ n
    | 0xf4 => n ≤ 0x8f
    | _ => true

def followersFound (first : UInt8) : Nat → Bytes → Nat
  | 0, _ => 0
  | _ + 1, [] => 0
  | n + 1, b :: bs =>
    if mayFollow first b then 1 + ((bs.take n).takeWhile isContinuation).length else 0

def decodeErrorAt? (position : Nat) : Bytes → Option DecodeError
  | [] => none
  | b :: bs =>
    match followers? b with
    | none => some ⟨position, b, 1, .start⟩
    | some n =>
      let found := followersFound b n bs
      if found = n then none
      else if bs.length = found then some ⟨0, b, 1 + found, .ending⟩
      else some ⟨position, b, 1 + found, .continuation⟩

def decodeFrom (position : Nat) : Nat → Bytes → Except DecodeError Chars
  | _, [] => .ok []
  | skip + 1, _ :: bs => decodeFrom (position + 1) skip bs
  | 0, b :: bs =>
    match decodeErrorAt? position (b :: bs), firstChar? (b :: bs) with
    | some e, _ => .error e
    | none, some (c, n) => (decodeFrom (position + 1) n bs).map (c :: ·)
    | none, none => .error ⟨position, b, 1, .start⟩

def decodeStrictly (bs : Bytes) : Except DecodeError Chars := decodeFrom 0 0 bs

end LuaTune.Text
