/-!
# Operations

The 92 operations of the processor, one for each mnemonic, in families. Every opcode byte stands
for one of them.
-/

namespace W65C816

/-- What an instruction does, whatever its operand. -/
inductive Operation where
  -- Arithmetic, logic and comparison.
  | adc | sbc | and | ora | eor | cmp | cpx | cpy | bit | tsb | trb
  -- Branches.
  | bcc | bcs | beq | bne | bmi | bpl | bvc | bvs | bra | brl
  -- Shifts and rotations.
  | asl | lsr | rol | ror
  -- Loads and stores.
  | lda | ldx | ldy | sta | stx | sty | stz
  -- Counting.
  | inc | dec | inx | iny | dex | dey
  -- Jumps, calls, returns and halts.
  | jmp | jml | jsr | jsl | rts | rtl | rti | brk | cop | nop | wdm | wai | stp
  -- Pushes and pulls.
  | pha | phx | phy | pla | plx | ply | php | plp | phb | plb | phd | pld | phk | pea | pei | per
  -- Flags and modes.
  | clc | sec | cli | sei | cld | sed | clv | rep | sep | xce
  -- Transfers between registers.
  | tax | tay | txa | tya | tsx | txs | txy | tyx | tcd | tdc | tcs | tsc | xba
  -- Block moves.
  | mvn | mvp
  deriving DecidableEq, Repr, Inhabited

namespace Operation

/-- The three letters that stand for an operation. -/
def mnemonic : Operation → String
  | adc => "ADC" | sbc => "SBC" | and => "AND" | ora => "ORA" | eor => "EOR" | cmp => "CMP"
  | cpx => "CPX" | cpy => "CPY" | bit => "BIT" | tsb => "TSB" | trb => "TRB"
  | bcc => "BCC" | bcs => "BCS" | beq => "BEQ" | bne => "BNE" | bmi => "BMI" | bpl => "BPL"
  | bvc => "BVC" | bvs => "BVS" | bra => "BRA" | brl => "BRL"
  | asl => "ASL" | lsr => "LSR" | rol => "ROL" | ror => "ROR"
  | lda => "LDA" | ldx => "LDX" | ldy => "LDY" | sta => "STA" | stx => "STX" | sty => "STY"
  | stz => "STZ"
  | inc => "INC" | dec => "DEC" | inx => "INX" | iny => "INY" | dex => "DEX" | dey => "DEY"
  | jmp => "JMP" | jml => "JML" | jsr => "JSR" | jsl => "JSL" | rts => "RTS" | rtl => "RTL"
  | rti => "RTI" | brk => "BRK" | cop => "COP" | nop => "NOP" | wdm => "WDM" | wai => "WAI"
  | stp => "STP"
  | pha => "PHA" | phx => "PHX" | phy => "PHY" | pla => "PLA" | plx => "PLX" | ply => "PLY"
  | php => "PHP" | plp => "PLP" | phb => "PHB" | plb => "PLB" | phd => "PHD" | pld => "PLD"
  | phk => "PHK" | pea => "PEA" | pei => "PEI" | per => "PER"
  | clc => "CLC" | sec => "SEC" | cli => "CLI" | sei => "SEI" | cld => "CLD" | sed => "SED"
  | clv => "CLV" | rep => "REP" | sep => "SEP" | xce => "XCE"
  | tax => "TAX" | tay => "TAY" | txa => "TXA" | tya => "TYA" | tsx => "TSX" | txs => "TXS"
  | txy => "TXY" | tyx => "TYX" | tcd => "TCD" | tdc => "TDC" | tcs => "TCS" | tsc => "TSC"
  | xba => "XBA"
  | mvn => "MVN" | mvp => "MVP"

end Operation

end W65C816
