
namespace TaskLoop.Text.Utf8

structure Fault where
  /-- The number of bytes before the fault, all of them well formed. -/
  offset : Nat
  /-- The length of the longest beginning of a sequence found there, or `none` if the input ends
  inside a sequence. -/
  length : Option Nat
deriving DecidableEq, Repr

def Fault.message (f : Fault) : String :=
  match f.length with
  | some n => s!"invalid utf-8 sequence of {n} bytes from index {f.offset}"
  | none => s!"incomplete utf-8 byte sequence from index {f.offset}"

def isContinuation (b : UInt8) : Bool := 0x80 ≤ b && b ≤ 0xbf

/-- The second bytes that may follow the first byte of a sequence of three: no overlong form and
no surrogate. -/
def isSecondOfThree (first second : UInt8) : Bool :=
  if first = 0xe0 then 0xa0 ≤ second && second ≤ 0xbf
  else if first = 0xed then 0x80 ≤ second && second ≤ 0x9f
  else isContinuation second

def isSecondOfFour (first second : UInt8) : Bool :=
  if first = 0xf0 then 0x90 ≤ second && second ≤ 0xbf
  else if first = 0xf4 then 0x80 ≤ second && second ≤ 0x8f
  else isContinuation second

def low (mask : Nat) (b : UInt8) : Nat := b.toNat % mask

def char2 (b₀ b₁ : UInt8) : Char := Char.ofNat (low 32 b₀ * 64 + low 64 b₁)

def char3 (b₀ b₁ b₂ : UInt8) : Char :=
  Char.ofNat ((low 16 b₀ * 64 + low 64 b₁) * 64 + low 64 b₂)

def char4 (b₀ b₁ b₂ b₃ : UInt8) : Char :=
  Char.ofNat (((low 8 b₀ * 64 + low 64 b₁) * 64 + low 64 b₂) * 64 + low 64 b₃)

def decodeFrom (offset : Nat) (done : Array Char) : List UInt8 → Except Fault (List Char)
  | [] => .ok done.toList
  | b₀ :: r₀ =>
    if b₀ < 0x80 then decodeFrom (offset + 1) (done.push (Char.ofNat b₀.toNat)) r₀
    else if 0xc2 ≤ b₀ && b₀ ≤ 0xdf then
      match r₀ with
      | [] => .error ⟨offset, none⟩
      | b₁ :: r₁ =>
        if isContinuation b₁ then decodeFrom (offset + 2) (done.push (char2 b₀ b₁)) r₁
        else .error ⟨offset, some 1⟩
    else if 0xe0 ≤ b₀ && b₀ ≤ 0xef then
      match r₀ with
      | [] => .error ⟨offset, none⟩
      | b₁ :: r₁ =>
        if isSecondOfThree b₀ b₁ then
          match r₁ with
          | [] => .error ⟨offset, none⟩
          | b₂ :: r₂ =>
            if isContinuation b₂ then decodeFrom (offset + 3) (done.push (char3 b₀ b₁ b₂)) r₂
            else .error ⟨offset, some 2⟩
        else .error ⟨offset, some 1⟩
    else if 0xf0 ≤ b₀ && b₀ ≤ 0xf4 then
      match r₀ with
      | [] => .error ⟨offset, none⟩
      | b₁ :: r₁ =>
        if isSecondOfFour b₀ b₁ then
          match r₁ with
          | [] => .error ⟨offset, none⟩
          | b₂ :: r₂ =>
            if isContinuation b₂ then
              match r₂ with
              | [] => .error ⟨offset, none⟩
              | b₃ :: r₃ =>
                if isContinuation b₃ then
                  decodeFrom (offset + 4) (done.push (char4 b₀ b₁ b₂ b₃)) r₃
                else .error ⟨offset, some 3⟩
            else .error ⟨offset, some 2⟩
        else .error ⟨offset, some 1⟩
    else .error ⟨offset, some 1⟩

def decode (bytes : List UInt8) : Except Fault (List Char) := decodeFrom 0 #[] bytes

end TaskLoop.Text.Utf8
