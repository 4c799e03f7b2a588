import Sm83.Instruction.Form

/-!
The map of the one-byte codes: a row for each upper nibble, in it a form for each lower nibble. Eleven codes
are holes.
-/

set_option autoImplicit false

namespace Sm83

namespace Form

abbrev copy (target source : Place) : Form := .inherent (.copy target source)

abbrev alu (op : AluOp) (source : Place) : Form := .inherent (.alu op source)

def map : Vector (Vector Form 16) 16 :=
  #v[
    #v[.inherent .nop, .word (.set .bc), .inherent (.storeAt .bc), .inherent (.incrementPair .bc),
        .inherent (.increment .b), .inherent (.decrement .b), .byte (.set .b), .inherent .rlca,
        .word .storeStack, .inherent (.addToHl .bc), .inherent (.loadAt .bc),
        .inherent (.decrementPair .bc), .inherent (.increment .c), .inherent (.decrement .c),
        .byte (.set .c), .inherent .rrca],
    #v[.byte .stop, .word (.set .de), .inherent (.storeAt .de), .inherent (.incrementPair .de),
        .inherent (.increment .d), .inherent (.decrement .d), .byte (.set .d), .inherent .rla,
        .byte .jump, .inherent (.addToHl .de), .inherent (.loadAt .de), .inherent (.decrementPair .de),
        .inherent (.increment .e), .inherent (.decrement .e), .byte (.set .e), .inherent .rra],
    #v[.byte (.jumpIf .nz), .word (.set .hl), .inherent (.storeAt .hlUp),
        .inherent (.incrementPair .hl), .inherent (.increment .h), .inherent (.decrement .h),
        .byte (.set .h), .inherent .decimalAdjust, .byte (.jumpIf .z), .inherent (.addToHl .hl),
        .inherent (.loadAt .hlUp), .inherent (.decrementPair .hl), .inherent (.increment .l),
        .inherent (.decrement .l), .byte (.set .l), .inherent .complement],
    #v[.byte (.jumpIf .nc), .word (.set .sp), .inherent (.storeAt .hlDown),
        .inherent (.incrementPair .sp), .inherent (.increment .atHl), .inherent (.decrement .atHl),
        .byte (.set .atHl), .inherent .setCarry, .byte (.jumpIf .c), .inherent (.addToHl .sp),
        .inherent (.loadAt .hlDown), .inherent (.decrementPair .sp), .inherent (.increment .a),
        .inherent (.decrement .a), .byte (.set .a), .inherent .flipCarry],
    #v[copy .b .b, copy .b .c, copy .b .d, copy .b .e, copy .b .h, copy .b .l, copy .b .atHl,
        copy .b .a, copy .c .b, copy .c .c, copy .c .d, copy .c .e, copy .c .h, copy .c .l,
        copy .c .atHl, copy .c .a],
    #v[copy .d .b, copy .d .c, copy .d .d, copy .d .e, copy .d .h, copy .d .l, copy .d .atHl,
        copy .d .a, copy .e .b, copy .e .c, copy .e .d, copy .e .e, copy .e .h, copy .e .l,
        copy .e .atHl, copy .e .a],
    #v[copy .h .b, copy .h .c, copy .h .d, copy .h .e, copy .h .h, copy .h .l, copy .h .atHl,
        copy .h .a, copy .l .b, copy .l .c, copy .l .d, copy .l .e, copy .l .h, copy .l .l,
        copy .l .atHl, copy .l .a],
    #v[copy .atHl .b, copy .atHl .c, copy .atHl .d, copy .atHl .e, copy .atHl .h, copy .atHl .l,
        .inherent .halt, copy .atHl .a, copy .a .b, copy .a .c, copy .a .d, copy .a .e, copy .a .h,
        copy .a .l, copy .a .atHl, copy .a .a],
    #v[alu .add .b, alu .add .c, alu .add .d, alu .add .e, alu .add .h, alu .add .l, alu .add .atHl,
        alu .add .a, alu .adc .b, alu .adc .c, alu .adc .d, alu .adc .e, alu .adc .h, alu .adc .l,
        alu .adc .atHl, alu .adc .a],
    #v[alu .sub .b, alu .sub .c, alu .sub .d, alu .sub .e, alu .sub .h, alu .sub .l, alu .sub .atHl,
        alu .sub .a, alu .sbc .b, alu .sbc .c, alu .sbc .d, alu .sbc .e, alu .sbc .h, alu .sbc .l,
        alu .sbc .atHl, alu .sbc .a],
    #v[alu .and .b, alu .and .c, alu .and .d, alu .and .e, alu .and .h, alu .and .l, alu .and .atHl,
        alu .and .a, alu .xor .b, alu .xor .c, alu .xor .d, alu .xor .e, alu .xor .h, alu .xor .l,
        alu .xor .atHl, alu .xor .a],
    #v[alu .or .b, alu .or .c, alu .or .d, alu .or .e, alu .or .h, alu .or .l, alu .or .atHl,
        alu .or .a, alu .cp .b, alu .cp .c, alu .cp .d, alu .cp .e, alu .cp .h, alu .cp .l,
        alu .cp .atHl, alu .cp .a],
    #v[.inherent (.retIf .nz), .inherent (.pop .bc), .word (.jumpIf .nz), .word .jump,
        .word (.callIf .nz), .inherent (.push .bc), .byte (.alu .add), .inherent (.restart 0),
        .inherent (.retIf .z), .inherent .ret, .word (.jumpIf .z), .byte .extended, .word (.callIf .z),
        .word .call, .byte (.alu .adc), .inherent (.restart 1)],
    #v[.inherent (.retIf .nc), .inherent (.pop .de), .word (.jumpIf .nc), .hole, .word (.callIf .nc),
        .inherent (.push .de), .byte (.alu .sub), .inherent (.restart 2), .inherent (.retIf .c),
        .inherent .retInterrupt, .word (.jumpIf .c), .hole, .word (.callIf .c), .hole,
        .byte (.alu .sbc), .inherent (.restart 3)],
    #v[.byte .storeDevice, .inherent (.pop .hl), .inherent .storeDevice, .hole, .hole,
        .inherent (.push .hl), .byte (.alu .and), .inherent (.restart 4), .byte .addToStack,
        .inherent .jumpHl, .word .store, .hole, .hole, .hole, .byte (.alu .xor), .inherent (.restart 5)],
    #v[.byte .loadDevice, .inherent (.pop .af), .inherent .loadDevice, .inherent .disableInterrupts,
        .hole, .inherent (.push .af), .byte (.alu .or), .inherent (.restart 6), .byte .hlFromStack,
        .inherent .stackFromHl, .word .load, .inherent .enableInterrupts, .hole, .hole,
        .byte (.alu .cp), .inherent (.restart 7)]
  ]

end Form

structure Opcode where
  code : Byte
  deriving DecidableEq, Repr

namespace Opcode

def form (op : Opcode) : Form :=
  have : op.code.toNat < 256 := op.code.toNat_lt
  Form.map[op.code.toNat / 16][op.code.toNat % 16]

def isHole (op : Opcode) : Bool := op.form == .hole

def extended : Opcode := ⟨0xCB⟩

end Opcode

end Sm83
