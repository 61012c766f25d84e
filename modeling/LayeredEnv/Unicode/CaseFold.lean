import LayeredEnv.Unicode.RangeTable

namespace LayeredEnv.Unicode

/-- Characters that fold to another one, `count` of them `stride` apart, each by `shift`. -/
structure FoldRun where
  first : Nat
  count : Nat
  stride : Nat
  shift : Int

/-- Runs in the order of their first character: the distance from the run before, the count
less one, the stride, and the shift, doubled if it is not negative and otherwise doubled and
increased by one without its sign. -/
def decodeFoldRuns : (start : Nat) → List Nat → List FoldRun
  | start, gap :: more :: stride :: code :: rest =>
    let shift : Int := if code % 2 == 0 then (code / 2 : Nat) else -((code / 2 + 1 : Nat) : Int)
    ⟨start + gap, more + 1, stride, shift⟩ :: decodeFoldRuns (start + gap) rest
  | _, _ => []

def foldRuns : Array FoldRun :=
  (decodeFoldRuns 0 (decodeNumbers
    ["Y2P1X2s301Vo1BM1X2O61X2701evFX1N22o12227722HM22k101t71222601dH201mD1122401eD1012211cD201",
     "2301Y5101WD101YD1012201cD101gD201oD101kD1012401oD101sD201uD1222601XE1012201XE3012201XE10",
     "12211VE2122401ZE10124012801410122014101220141822J822J0141122401c6101n31J22e101g82822O01j",
     "jM1012201kA101djM3012201mC101j4101n41422c801k7h11226012901k7701j2221h2401Z4211X43G1X2I81",
     "X2V1012D01G101x1101n1401T101h12B22O01j3101X3301v3101Y42012201D1012321g83F1a5GV11X2n2G22g",
     "1Q22s101U1622Fl122Z3b11Y3iW3b11pYFd101pYF601pYFaQ51Fjd201hyC101fyC101sxC111oxC201qxC101c",
     "xC101qvC101ehg220116g11Wd6j121Wd6iAh222V501r35l122g371FG51FG71FG71FG51FH32FF71FO71GG71GG",
     "71GJ01I511F211s4401sxE501I531l5B01sWF511F211i6901rVF511F211b7201D701I511c8211Y8q901yoF40",
     "1uiH101VbH701u1k1F1W1Z1012iQP1q1by1l11Y3Y3012201XgM101Wy7101WfM3222601jiM101jgM101piM101",
     "niM20123012911rkM2n122j31227012seW1M22X2D22c5622GU22e2122401jlg21422D012201rzu231226922K",
     "01lWv2101cXv2101zWv2101fWv2101lWv2201eyu2101vzu2101kyu2101wx11722G01X3101jWv2101uog21122",
     "401tYv22011301261225011101vmv2P012sSm21fwn2bbL012yX1P1X2ce1d11n2q5Z11n2b6I2l2142l2C62l2G",
     "22l2801l2Zv1o11Z4s7L1W2hz2V11X2YuMV11X2qqW1X11b2"
    ])).toArray

def FoldRun.pairs (run : FoldRun) : List (Nat × Nat) :=
  (List.range run.count).map fun i =>
    let n := run.first + i * run.stride
    (n, ((n : Int) + run.shift).toNat)

def caseOrbits : List (List Nat) :=
  let pairs := (foldRuns.toList.flatMap FoldRun.pairs).mergeSort fun a b => a.2 ≤ b.2
  (pairs.splitBy fun a b => a.2 == b.2).filterMap fun
    | [] => none
    | (n, folded) :: rest => some (folded :: n :: rest.map (·.1))

namespace RangeTable

def fold (table : RangeTable) : RangeTable :=
  let added := (caseOrbits.filter (·.any table.containsCode)).flatten.mergeSort
  table.union ⟨(joinRuns (added.map fun n => (n, n))).toArray⟩

def foldAscii (table : RangeTable) : RangeTable :=
  let letters := (List.range 26).filter fun i =>
    table.containsCode (65 + i) || table.containsCode (97 + i)
  let run (n : Nat) : Nat × Nat := (n, n)
  table.union ⟨(joinRuns (letters.map (run <| 65 + ·) ++ letters.map (run <| 97 + ·))).toArray⟩

end RangeTable
end LayeredEnv.Unicode
