import Mathlib.Data.Nat.Notation

/-!
# The Dalvik opcode table of the devirtualizer

The table `md_ops` gives each mnemonic its opcode and its format; the format decides how the
operands are laid out and how many 16-bit units the instruction takes.
-/

namespace Vardoger.Dex

/-- The instruction formats, by their Dalvik names. -/
inductive Fmt
  | f10x | f11x | f11n | f12x | f10t
  | f22x | f21s | f21h | f21c | f21t | f23x | f22b | f22s | f22c | f22t | f20t
  | f31i | f31c | f30t | f35c | f3rc
  deriving DecidableEq, Repr

structure MdOp where
  op : BitVec 16
  fmt : Fmt
  deriving DecidableEq, Repr

/-- The operations with a three-register and a `/2addr` form, in opcode order. -/
def binaryOps : List String :=
  ["add-int", "sub-int", "mul-int", "div-int", "rem-int", "and-int", "or-int", "xor-int",
    "shl-int", "shr-int", "ushr-int", "add-long", "sub-long", "mul-long", "div-long", "rem-long",
    "and-long", "or-long", "xor-long", "shl-long", "shr-long", "ushr-long", "add-float",
    "sub-float", "mul-float", "div-float", "rem-float", "add-double", "sub-double", "mul-double",
    "div-double", "rem-double"]

/-- The operations with a 16-bit literal, in opcode order. -/
def lit16Ops : List String :=
  ["add-int", "rsub-int", "mul-int", "div-int", "rem-int", "and-int", "or-int", "xor-int"]

/-- The operations with an 8-bit literal, in opcode order. -/
def lit8Ops : List String :=
  ["add-int", "rsub-int", "mul-int", "div-int", "rem-int", "and-int", "or-int", "xor-int",
    "shl-int", "shr-int", "ushr-int"]

/-- The entries of a family: its members take consecutive opcodes from `first` on. -/
def family (names : List String) (suffix : String) (first : ℕ) (fmt : Fmt) :
    List (String × MdOp) :=
  names.zipIdx.map fun (name, i) => (name ++ suffix, ⟨BitVec.ofNat 16 (first + i), fmt⟩)

/-- The entries that are written out in the table. -/
def listedOps : List (String × MdOp) :=
  [("nop", ⟨0x00, .f10x⟩), ("move", ⟨0x01, .f12x⟩), ("move/from16", ⟨0x02, .f22x⟩),
    ("move-wide", ⟨0x04, .f12x⟩), ("move-object", ⟨0x07, .f12x⟩),
    ("move-object/from16", ⟨0x08, .f22x⟩), ("move-result", ⟨0x0a, .f11x⟩),
    ("move-result-wide", ⟨0x0b, .f11x⟩), ("move-result-object", ⟨0x0c, .f11x⟩),
    ("move-exception", ⟨0x0d, .f11x⟩), ("return-void", ⟨0x0e, .f10x⟩), ("return", ⟨0x0f, .f11x⟩),
    ("return-wide", ⟨0x10, .f11x⟩), ("return-object", ⟨0x11, .f11x⟩), ("const/4", ⟨0x12, .f11n⟩),
    ("const/16", ⟨0x13, .f21s⟩), ("const", ⟨0x14, .f31i⟩), ("const/high16", ⟨0x15, .f21h⟩),
    ("const-wide/16", ⟨0x16, .f21s⟩), ("const-wide/32", ⟨0x17, .f31i⟩),
    ("const-wide/high16", ⟨0x19, .f21h⟩), ("const-string", ⟨0x1a, .f21c⟩),
    ("const-class", ⟨0x1c, .f21c⟩), ("monitor-enter", ⟨0x1d, .f11x⟩),
    ("monitor-exit", ⟨0x1e, .f11x⟩), ("check-cast", ⟨0x1f, .f21c⟩),
    ("instance-of", ⟨0x20, .f22c⟩), ("array-length", ⟨0x21, .f12x⟩),
    ("new-instance", ⟨0x22, .f21c⟩), ("new-array", ⟨0x23, .f22c⟩), ("throw", ⟨0x27, .f11x⟩),
    ("goto", ⟨0x28, .f10t⟩), ("goto/16", ⟨0x29, .f20t⟩), ("goto/32", ⟨0x2a, .f30t⟩),
    ("cmpl-float", ⟨0x2d, .f23x⟩), ("cmpg-float", ⟨0x2e, .f23x⟩), ("cmpl-double", ⟨0x2f, .f23x⟩),
    ("cmpg-double", ⟨0x30, .f23x⟩), ("cmp-long", ⟨0x31, .f23x⟩), ("if-eq", ⟨0x32, .f22t⟩),
    ("if-ne", ⟨0x33, .f22t⟩), ("if-lt", ⟨0x34, .f22t⟩), ("if-ge", ⟨0x35, .f22t⟩),
    ("if-gt", ⟨0x36, .f22t⟩), ("if-le", ⟨0x37, .f22t⟩), ("if-eqz", ⟨0x38, .f21t⟩),
    ("if-nez", ⟨0x39, .f21t⟩), ("if-ltz", ⟨0x3a, .f21t⟩), ("if-gez", ⟨0x3b, .f21t⟩),
    ("if-gtz", ⟨0x3c, .f21t⟩), ("if-lez", ⟨0x3d, .f21t⟩), ("aget", ⟨0x44, .f23x⟩),
    ("aget-wide", ⟨0x45, .f23x⟩), ("aget-object", ⟨0x46, .f23x⟩), ("aget-boolean", ⟨0x47, .f23x⟩),
    ("aget-byte", ⟨0x48, .f23x⟩), ("aget-char", ⟨0x49, .f23x⟩), ("aget-short", ⟨0x4a, .f23x⟩),
    ("aput", ⟨0x4b, .f23x⟩), ("aput-wide", ⟨0x4c, .f23x⟩), ("aput-object", ⟨0x4d, .f23x⟩),
    ("aput-boolean", ⟨0x4e, .f23x⟩), ("aput-byte", ⟨0x4f, .f23x⟩), ("aput-char", ⟨0x50, .f23x⟩),
    ("aput-short", ⟨0x51, .f23x⟩), ("iget", ⟨0x52, .f22c⟩), ("iget-wide", ⟨0x53, .f22c⟩),
    ("iget-object", ⟨0x54, .f22c⟩), ("iget-boolean", ⟨0x55, .f22c⟩), ("iget-byte", ⟨0x56, .f22c⟩),
    ("iget-char", ⟨0x57, .f22c⟩), ("iget-short", ⟨0x58, .f22c⟩), ("iput", ⟨0x59, .f22c⟩),
    ("iput-wide", ⟨0x5a, .f22c⟩), ("iput-object", ⟨0x5b, .f22c⟩), ("iput-boolean", ⟨0x5c, .f22c⟩),
    ("iput-byte", ⟨0x5d, .f22c⟩), ("iput-char", ⟨0x5e, .f22c⟩), ("iput-short", ⟨0x5f, .f22c⟩),
    ("sget", ⟨0x60, .f21c⟩), ("sget-wide", ⟨0x61, .f21c⟩), ("sget-object", ⟨0x62, .f21c⟩),
    ("sget-boolean", ⟨0x63, .f21c⟩), ("sget-byte", ⟨0x64, .f21c⟩), ("sget-char", ⟨0x65, .f21c⟩),
    ("sget-short", ⟨0x66, .f21c⟩), ("sput", ⟨0x67, .f21c⟩), ("sput-wide", ⟨0x68, .f21c⟩),
    ("sput-object", ⟨0x69, .f21c⟩), ("sput-boolean", ⟨0x6a, .f21c⟩), ("sput-byte", ⟨0x6b, .f21c⟩),
    ("sput-char", ⟨0x6c, .f21c⟩), ("sput-short", ⟨0x6d, .f21c⟩),
    ("invoke-virtual", ⟨0x6e, .f35c⟩), ("invoke-super", ⟨0x6f, .f35c⟩),
    ("invoke-direct", ⟨0x70, .f35c⟩), ("invoke-static", ⟨0x71, .f35c⟩),
    ("invoke-interface", ⟨0x72, .f35c⟩), ("invoke-virtual/range", ⟨0x74, .f3rc⟩),
    ("invoke-super/range", ⟨0x75, .f3rc⟩), ("invoke-direct/range", ⟨0x76, .f3rc⟩),
    ("invoke-static/range", ⟨0x77, .f3rc⟩), ("invoke-interface/range", ⟨0x78, .f3rc⟩),
    ("neg-int", ⟨0x7b, .f12x⟩), ("not-int", ⟨0x7c, .f12x⟩), ("neg-long", ⟨0x7d, .f12x⟩),
    ("not-long", ⟨0x7e, .f12x⟩), ("neg-float", ⟨0x7f, .f12x⟩), ("neg-double", ⟨0x80, .f12x⟩),
    ("int-to-long", ⟨0x81, .f12x⟩), ("int-to-float", ⟨0x82, .f12x⟩),
    ("int-to-double", ⟨0x83, .f12x⟩), ("long-to-int", ⟨0x84, .f12x⟩),
    ("long-to-float", ⟨0x85, .f12x⟩), ("long-to-double", ⟨0x86, .f12x⟩),
    ("float-to-int", ⟨0x87, .f12x⟩), ("float-to-long", ⟨0x88, .f12x⟩),
    ("float-to-double", ⟨0x89, .f12x⟩), ("double-to-int", ⟨0x8a, .f12x⟩),
    ("double-to-long", ⟨0x8b, .f12x⟩), ("double-to-float", ⟨0x8c, .f12x⟩),
    ("int-to-byte", ⟨0x8d, .f12x⟩), ("int-to-char", ⟨0x8e, .f12x⟩),
    ("int-to-short", ⟨0x8f, .f12x⟩)]

/-- The opcode and format of every mnemonic. -/
def mdOps : List (String × MdOp) :=
  listedOps ++ family binaryOps "" 0x90 .f23x ++ family binaryOps "/2addr" 0xb0 .f12x ++
    family lit16Ops "/lit16" 0xd0 .f22s ++ family lit8Ops "/lit8" 0xd8 .f22b

/-- The number of 16-bit units of a format. -/
def mdUnits : Fmt → ℕ
  | .f10x | .f11x | .f11n | .f12x | .f10t => 1
  | .f22x | .f21s | .f21h | .f21c | .f21t | .f23x | .f22b | .f22s | .f22c | .f22t | .f20t => 2
  | .f31i | .f31c | .f30t | .f35c | .f3rc => 3

/-- Every opcode of the table fits a byte, and no entry has the format that the encoder lacks. -/
theorem mdOps_spec : ∀ entry ∈ mdOps, entry.2.op < 0x100#16 ∧ entry.2.fmt ≠ .f31c := by
  decide +kernel

end Vardoger.Dex
