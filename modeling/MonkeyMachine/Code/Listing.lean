import MonkeyMachine.Code.Encoding

/-!
# Listings

The readable form of a code buffer, one line per instruction. Decoding goes on after a byte that is
no opcode and stops at an instruction that the buffer cuts short.
-/

namespace MonkeyMachine

/-- One line of a listing. -/
inductive Line
  | instruction (offset : Nat) (opcode : Opcode) (operands : List Nat)
  | unknown (byte : UInt8)
  | cut (offset : Nat) (cause : EncodingError)
  deriving DecidableEq

namespace Line

/-- A buffer offset in at least four digits. -/
def offsetText (offset : Nat) : String :=
  let digits := toString offset
  String.ofList (List.replicate (4 - digits.length) '0') ++ digits

def text : Line → String
  | instruction offset opcode operands =>
      offsetText offset ++ " " ++ opcode.mnemonic ++
        String.join (operands.map fun operand => " " ++ toString operand)
  | unknown byte => "ERROR: " ++ (EncodingError.unknownOpcode byte).message
  | cut offset cause => offsetText offset ++ " ERROR: " ++ cause.message

end Line

namespace Code

/-- The lines of the buffer from `offset` on. -/
def linesFrom (code : Code) (offset : Nat) : List Line :=
  if h : offset < code.size then
    match Opcode.ofByte? code[offset] with
    | none => .unknown code[offset] :: linesFrom code (offset + 1)
    | some op =>
        match code.decodeOperands (offset + 1) op with
        | .ok (operands, read) =>
            .instruction offset op operands :: linesFrom code (offset + 1 + read)
        | .error cause => [.cut offset cause]
  else
    []
  termination_by code.size - offset

def lines (code : Code) : List Line := code.linesFrom 0

/-- The listing, each line ended by a newline. -/
def listing (code : Code) : String :=
  String.join (code.lines.map fun line => line.text ++ "\n")

/-- The bytes themselves, in decimal. -/
def bytesText (code : Code) : String :=
  "Instructions([" ++ String.intercalate ", " (code.toList.map fun b => toString b.toNat) ++ "])"

end Code

end MonkeyMachine
