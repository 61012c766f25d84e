import LayeredEnv.Unicode.RangeTable

namespace LayeredEnv.Unicode

def graphemeBreakRuns : List (List String × List String) :=
  [(["cr"],
    ["D0"]),
   (["cn", "control"],
    ["09111HX3W1D0vi10at40yY2021O6n1Fxdx10s7BYxDFbfa13vl57yrtQV1Y3Y4s7Ys3"]),
   (["ex", "extend"],
    ["tOn3w86k8i110111110f2Am1KG0d36252113Z10UQy2Aw1890O3181214h12x18g1N1V1t1010474036A1T0w101",
     "0238090A1Q021v1041412230U130B1v10441140K1M510w1011138072A1U0x1010C090e1030t1012521371B1T",
     "0w102110321371B1S1v1110238090A1T0f2040221080o2026C7a3028B6g21R01010t1D14115A1Z190e331511",
     "21P142G3D02160F0qM2lU3S2T1U1X2116802A90j1210t31Y10u32419062X7120w10161010276920m1Un13m19",
     "42c18C1W1325u10113014u1721x421C16406031h6W2xG0e6W1Wb32m40Y3V1wH5h31WhV1319W11n21t803040P",
     "150w41QHD0c17PA10i12m10232120a10a252121C080l10p1012215110g1180q702040yXL0tNFGFuB1lJ0e70u",
     "44wr121153e1240f51kI3Y24cA1m23d2An13z30s1Ef1021A2n132170z12a1417V20C1q18108320X32236020X",
     "5037L1v111010C090E634a20251020124210E1s272210N0o202510201111n70236111R1s272011i301027d30",
     "102314g8811x70A340p432140W19e1523809522k1C11YD61510p2L261111y3530111610f213010bB1B1q1452",
     "N0mm506EuxBB32ln24x16uX10W23o20B1ZiK1tw4j12MkH4358726U3t42vW2s14n180E0M41Ewh161G261114c3",
     "0a56YC0z13hG3b81sN6l36dv24xmkQX3Z4r7"]),
   (["l"],
    ["hl4X3cke1S"]),
   (["lf"],
    ["A0"]),
   (["lv"],
    ["huj10R0R0R0R0R0R0R0R0R0R0R0R0R0R0R0R0R0R0R0R0R0R0R0R0R0R0R0R0R0R0R0R0R0R0R0R0R0R0R0R0R0R",
     "0R0R0R0R0R0R0R0R0R0R0R0R0R0R0R0R0R0R0R0R0R0R0R0R0R0R0R0R0R0R0R0R0R0R0R0R0R0R0R0R0R0R0R0R",
     "0R0R0R0R0R0R0R0R0R0R0R0R0R0R0R0R0R0R0R0R0R0R0R0R0R0R0R0R0R0R0R0R0R0R0R0R0R0R0R0R0R0R0R0R",
     "0R0R0R0R0R0R0R0R0R0R0R0R0R0R0R0R0R0R0R0R0R0R0R0R0R0R0R0R0R0R0R0R0R0R0R0R0R0R0R0R0R0R0R0R",
     "0R0R0R0R0R0R0R0R0R0R0R0R0R0R0R0R0R0R0R0R0R0R0R0R0R0R0R0R0R0R0R0R0R0R0R0R0R0R0R0R0R0R0R0R",
     "0R0R0R0R0R0R0R0R0R0R0R0R0R0R0R0R0R0R0R0R0R0R0R0R0R0R0R0R0R0R0R0R0R0R0R0R0R0R0R0R0R0R0R0R",
     "0R0R0R0R0R0R0R0R0R0R0R0R0R0R0R0R0R0R0R0R0R0R0R0R0R0R0R0R0R0R0R0R0R0R0R0R0R0R0R0R0R0R0R0R",
     "0R0R0R0R0R0R0R0R0R0R0R0R0R0R0R0R0R0R0R0R0R0R0R0R0R0R0R0R0R0R0R0R0R0R0R0R0R0R0R0R0R0R0R0R",
     "0R0R0R0R0R0R0R0R0R0R0R0R0R0R0R0R0R0R0R0R0R0R0R0R0R0R0R0R0R0R0R0R0R0R0R0R0R0R0R0R0R0R0R0R",
     "0R0R0R0R0"]),
   (["lvt"],
    ["iuj1Q1Q1Q1Q1Q1Q1Q1Q1Q1Q1Q1Q1Q1Q1Q1Q1Q1Q1Q1Q1Q1Q1Q1Q1Q1Q1Q1Q1Q1Q1Q1Q1Q1Q1Q1Q1Q1Q1Q1Q1Q1Q1",
     "Q1Q1Q1Q1Q1Q1Q1Q1Q1Q1Q1Q1Q1Q1Q1Q1Q1Q1Q1Q1Q1Q1Q1Q1Q1Q1Q1Q1Q1Q1Q1Q1Q1Q1Q1Q1Q1Q1Q1Q1Q1Q1Q1Q1",
     "Q1Q1Q1Q1Q1Q1Q1Q1Q1Q1Q1Q1Q1Q1Q1Q1Q1Q1Q1Q1Q1Q1Q1Q1Q1Q1Q1Q1Q1Q1Q1Q1Q1Q1Q1Q1Q1Q1Q1Q1Q1Q1Q1Q1",
     "Q1Q1Q1Q1Q1Q1Q1Q1Q1Q1Q1Q1Q1Q1Q1Q1Q1Q1Q1Q1Q1Q1Q1Q1Q1Q1Q1Q1Q1Q1Q1Q1Q1Q1Q1Q1Q1Q1Q1Q1Q1Q1Q1Q1",
     "Q1Q1Q1Q1Q1Q1Q1Q1Q1Q1Q1Q1Q1Q1Q1Q1Q1Q1Q1Q1Q1Q1Q1Q1Q1Q1Q1Q1Q1Q1Q1Q1Q1Q1Q1Q1Q1Q1Q1Q1Q1Q1Q1Q1",
     "Q1Q1Q1Q1Q1Q1Q1Q1Q1Q1Q1Q1Q1Q1Q1Q1Q1Q1Q1Q1Q1Q1Q1Q1Q1Q1Q1Q1Q1Q1Q1Q1Q1Q1Q1Q1Q1Q1Q1Q1Q1Q1Q1Q1",
     "Q1Q1Q1Q1Q1Q1Q1Q1Q1Q1Q1Q1Q1Q1Q1Q1Q1Q1Q1Q1Q1Q1Q1Q1Q1Q1Q1Q1Q1Q1Q1Q1Q1Q1Q1Q1Q1Q1Q1Q1Q1Q1Q1Q1",
     "Q1Q1Q1Q1Q1Q1Q1Q1Q1Q1Q1Q1Q1Q1Q1Q1Q1Q1Q1Q1Q1Q1Q1Q1Q1Q1Q1Q1Q1Q1Q1Q1Q1Q1Q1Q1Q1Q1Q1Q1Q1Q1Q1Q1",
     "Q1Q1Q1Q1Q1Q1Q1Q1Q1Q1Q1Q1Q1Q1Q1Q1Q1Q1Q1Q1Q1Q1Q1Q1Q1Q1Q1Q1Q1Q1Q1Q1Q1Q1Q1Q1Q1Q1Q1Q1Q1Q1Q1Q1",
     "Q1Q1Q1Q1Q"]),
   (["pp", "prepend"],
    ["mn15y60n10hC1n20ka10hYc20F0w71yG0ui1010V80g25nM0eE0"]),
   (["ri", "regionalindicator"],
    ["qod4P"]),
   (["sm", "spacingmark"],
    ["ih20t10228311o11x116121s10w12Z20w128011r11y106121q30113212q12z13z11w102011k10E1x115212r1",
     "1j2166J1W20Y40j41W20r5091P1i10hx107711aB3224115c71w1010L5q40v13X20U041W202210r1781l50L0d",
     "Xb1120v21o1Fn40m10m114121n3121O0X502150p71111110ipQ010Y40j1241r30O1x10m1290E0V3231m52V11",
     "x10132121L1s21F011f328130j3160111020q716320p328110l3011m3070i8290V84117010n428340r20T1V2",
     "0ZD0E0i307020w644110eB1C0m1181fmH2ts3s1"]),
   (["t"],
    ["uq4u2hqq1m1"]),
   (["v"],
    ["ko4e2gsq1Mkvd1033"]),
   (["zwj"],
    ["ql80"])]

def graphemeBreak? (name : String) : Option RangeTable := lookupRuns graphemeBreakRuns name

def wordBreakRuns : List (List String × List String) :=
  [(["le", "aletter"],
    ["Y2P6Pl10A0405M1U1jF6X1o341123106012101J1p21j48f51b123101e110g30i1g1Z111a310F171A220F11TT",
     "v2B0OW191405L409030NO7A5N15Hf1w1r130I079FF47212L16103330G0D112E1A085412L16111111V1310J2G",
     "8121L16111430I0F1N0B7212L16111430U112F0H015321331101131323BM0q17121M1F30Q22021U047121M19",
     "1430V1111F1H8121e120G05282O55H3N181026YA0W271Z1R4w8b110502g11rA132610132e1132W1132610132",
     "E1u1132Z2b1FGs2253zJ2G1P5h23A7HDIEHEC12p5v2742X1105c2AUd7Mq7k1H7s1TD1Ah1QZ1f12AZ12A5g122",
     "f131511305a6X2y8252b125271010101U2q11610321633254C5216s30D0GCd3040291034601010131A235440",
     "He1cQp1lw1g76331Cb110502t170GM9616161616161616n20ZF0r11j6g11V3HV1jgTmb1a2j12p83FA1Kk1GU2",
     "m2Og6211017LF12131MTp1En1V253011BRAMPS7k1S0m1e1N217t4A72C5252596161v16q3TgoBCM4m1af96C4u",
     "1Z3X1qBIW22r1e1Bs341f4a1P6Pc2U35252522Z1B1P1I111E2DY1y3c2q1o8S3m1l1V1DT5b1AT2Z14714g1X5I",
     "Z14Z14d18p1CA1E16111A1E16113p1CVA9LA7O51f118c25201h111302MAM9UY2I11ALAPd2t161X20F3121Sg1",
     "S3SZ171RRr1ALAIDHm3f2t1o1Do1DZ1c1R9MX8f161G2x1SA08Lg1Hk1KRMCq1v1120Di1W1OQZ1T0208Y130Cl1",
     "E3L010Z1H1OJ1W2610131E197k1c17212L16111430I0C4U910201b110P010i1q1I3K2Ul1K110y5k1f13a1l1K",
     "0x1g1D0mAh1s3W2V172027111NF010W372c1G010S0Ad170L0Bj1J0If2i6W1V181a1H0n1To36111b1L0P5111V",
     "1E0mAIF01C1X1V40m2rTe3m3He6Ws2Y3FmY1H5PvZ45tIqY7Tvu1fI7UHl2HTIl1G3V1K5IyDi1u6W2Z4h250Z2C",
     "X2110ldKi35C3879cc6r21d2112021231B10161X21327161R131410361yA2O1O1U1O1U1O1U1O1U1O17kx1U65",
     "i8z1r4i1A6G0gATIh1oFRg7T20zF613111E1f6x1a270vc131Q11102019131010604010101211102010101010",
     "11102316131310191G52141GdKP6P6P"]),
   (["cr"],
    ["D0"]),
   (["dq", "doublequote"],
    ["Y10"]),
   (["extend"],
    ["tOn3w86k8i110111110f2Am1KG0d36252113Z10UQy2Aw1890O3181214h12x18g1N1W1s121H16A1T2u1016212",
     "290A1Q022u1014412230U130B2u10171212K1M512u1016212272A1U0x14321390e14t1016121371B1T2u1016",
     "121371B1F0C3t1116121390A1T2d20451017I1z1026C7a3028B6g21R0101041n1J115A1Z190c3JN342122633",
     "DB10A3qM2lU3S2T1U1X2V190j1210t31Y10u3B4BX74v191S20m1Un14l1Gc18C2UCu1Dm1Jx421K406022h6W2x",
     "G0e6W1Wb32m40Y3V1wH5h31WhV1319W11n21t803040N440q21o1HQHD0c17PCi13l1Da10a2DC081j12o101221",
     "5110f1451o7711yXL0tNFGFuB1lJ0e70u44wr121153e1240f51kI3Y24cA1m23d2An13y32r1Ef1021A3j1A70z",
     "12a1DG1i10C2m1D8311z2B6020X5BL3t1116212290A12634a281020131410E1p2HN0o2Jn7628R1p2Gi3Cd3Ed",
     "8Ex7511231011m462630S9e1613809Ak1FXD717p2L1Dy3530111610Z241114bB39110m1634N0mm506EuxBHln",
     "24x16uX101s173o20B1ZiK1tw4j12MkH4358726U3t42vW2s14n180E0M41Ewh161G261114c30a56YC0z13hG3b",
     "81sN6l36dv24xmkQX3Z4r7"]),
   (["ex", "extendnumlet"],
    ["X30qj80F1J0bYx11O2r70"]),
   (["fo", "format"],
    ["n50vi10at40WZ21Q4n1419xdx10W82YxDFbfa13vl57zrtQ0"]),
   (["hl", "hebrewletter"],
    ["Vm1Q43neY20191C1410111119"]),
   (["ka", "katakana"],
    ["zuC4d313x213s7Fr6k11u2Ygs1t1Xzk13161110d92o10E3"]),
   (["lf"],
    ["A0"]),
   (["ml", "midletter"],
    ["w10V40bN0bF0t40fz60oYx10Y20f60"]),
   (["mn", "midnum"],
    ["i10E0xQ0vG0b41W30sC0oj60pZx1030x50E0"]),
   (["mb", "midnumlet"],
    ["k10lk81A0sax10u5060"]),
   (["nl", "newline"],
    ["B1w30ci81"]),
   (["nu", "numeric"],
    ["m19ql15x2910p30I9h69h61n20c49u39u39u39u39u39u39u39u39u39Y39u39d29z89d29Xy19c19q99Z4Af596",
     "9w59t29f4969sqa19wL9c19h69M9t29YD9ZZM9oj19hd2969qP9k20F0Y19y19p49z89WB9u39XC9e396Jj29oD9",
     "e39gL9t29y79d29oD9qlH9mi29t29f49cH9fiP9iw2n1hj29oD9bG9z79lR9ky49"]),
   (["ri", "regionalindicator"],
    ["qod4P"]),
   (["sq", "singlequote"],
    ["d10"]),
   (["wsegspace"],
    ["W10sy50il2612r20Wa40"]),
   (["zwj"],
    ["ql80"])]

def wordBreak? (name : String) : Option RangeTable := lookupRuns wordBreakRuns name

def sentenceBreakRuns : List (List String × List String) :=
  [(["at", "aterm"],
    ["k10xk80sax10W60"]),
   (["cr"],
    ["D0"]),
   (["cl", "close"],
    ["Y1042n1010T010j10F0qv33uy11el27P1A1s11E1iK3T1nY157Dm21V19VDLW23W11YX1DE129O0I7tD92712wos",
     "11y61SF21G5j51n1010T0101111fuY22"]),
   (["ex", "extend"],
    ["tOn3w86k8i110111110f2Am1KG0d36252113Z10UQy2Aw1890O3181214h12x18g1N1W1s121H16A1T2u1016212",
     "290A1Q022u1014412230U130B2u10171212K1M512u1016212272A1U0x14321390e14t1016121371B1T2u1016",
     "121371B1F0C3t1116121390A1T2d20451017I1z1026C7a3028B6g21R0101041n1J115A1Z190c3JN342122633",
     "DB10A3qM2lU3S2T1U1X2V190j1210t31Y10u3B4BX74v191S20m1Un14l1Gc18C2UCu1Dm1Jx421K406022h6W2x",
     "G1d6W1Wb32m40Y3V1wH5h31WhV1319W11n21t803040N440q21o1HQHD0c17PCi13l1Da10a2DC081j12o101221",
     "5110f1451o7711yXL0tNFGFuB1lJ0e70u44wr121153e1240f51kI3Y24cA1m23d2An13y32r1Ef1021A3j1A70z",
     "12a1DG1i10C2m1D8311z2B6020X5BL3t1116212290A12634a281020131410E1p2HN0o2Jn7628R1p2Gi3Cd3Ed",
     "8Ex7511231011m462630S9e1613809Ak1FXD717p2L1Dy3530111610Z241114bB39110m1634N0mm506EuxBHln",
     "24x16uX101s173o20B1ZiK1tw4j12MkH4358726U3t42vW2s14n180E0M41Ewh161G261114c30a56YC0z13hG3b",
     "81sN6l36finQX3Z4r7"]),
   (["fo", "format"],
    ["n50vi10u70fl40yY2021Q4n1419xdx10W82YxDFbfa13vl57zrtQ0"]),
   (["lf"],
    ["A0"]),
   (["lo", "lower"],
    ["Z3Pl10A040a1N171010101010101010101010101010101010101010101010101010101110101010101010111",
     "0101010101010101010101010101010101010101010102010122010203140203220201010201110203010212",
     "2602020101010101010101110101010101010101120103010101010101010101010101010101010101010101",
     "01010101010101016202110401010101b21Z171U4l40103023I0RY1113210101010101010101010101410202",
     "1p1l110101010101010101010101010101010109010101010101010101010101010101010101010101010101",
     "0101020101010101011101010101010101010101010101010101010101010101010101010101010101010101",
     "010101010101010101010101010m1e1mW30oO5dd2810t3a6Y201010101010101010101010101010101010101",
     "0101010101010101010101010101010101010101010101010101010101010101010101010101010101010101",
     "0101010101010101010101810101010101010101010101010101010101010101010101010101010101010101",
     "01010101010101010101010101010101885A78785A7878D2787878411603211832187A211x30D0GCl303130R",
     "04040218340X1F40bRPXy1l11031101010401117301010101010101010101010101010101010101010101010",
     "1010101010101010101010101010101010101010101010101011701040Cb11050vcW10101010101010101010",
     "10101010101010101010101010J010101010101010101010101012e401010101010121010101010101010101",
     "0101010101010101010101010101010101010101019101020101010104010201210101010101010101010505",
     "010101010101010401020301010101010M21012kQg11D6m2jYL6C4gY1Ppd1d1h4Z1V5A1E1611mE0221f118jf",
     "1o1W4Lrz2V1XtMV1WXRPQ61HQPQ310161AQPQPQPQPQPQPQPQPQRSO15QO15QO15QO15QO1510kx191J65i8z1we",
     "2X1"]),
   (["nu", "numeric"],
    ["m19ql15x2911o30I9h69h61n20c49u39u39u39u39u39u39u39u39u39Y39u39d29z89d29Xy19c19q99Z4Af596",
     "9w59t29f4969sqa19wL9c19h69M9t29YD9ZZM9oj19hd2969qP9k20F0Y19y19p49z89WB9u39XC9e396Jj29oD9",
     "e39gL9t29y79d29oD9qlH9mi29t29f49cH9fiP9iw2n1hj29oD9bG9z79lR9ky49"]),
   (["le", "oletter"],
    ["eE043r60a166BQ010e40oF0u3Q44i1g1Z111a310F171A220G01TTv2B0OW191405L409030NO7A5N15Hf1w1r13",
     "0I079FF47212L16103330G0D112E1A085412L16111111V1310J2G8121L16111430I0F1N0B7212L16111430U1",
     "12F0H015321331101131323BM0q17121M1F30Q22021U047121M191430V1111F1H8121e120G05282O55H3N181",
     "026w1l111C6w1110141N101911902410L3W10W271Z1R4r3g1K0G5433031724CC0Y2g12qA132610132e1132W1",
     "132610132E1u1132Z2b1Fp3zJ2G1P5h23A7HDIEHEC12Fp1Z1040a2v2742X1105c2AUn1T24Bh14Ps1M9q1p20V",
     "3k1H7s1TD1Ah1QZ1f12AZ1Ig122f13151130xY13e2223cY3t170GM9616161616161616n20ZF2P874244s2621",
     "w2135g11V3HV1m1FlGov6X2rWNa2j12p83FA1Z20G0W1m2d18g3060f303612131MTp1En1V253011BRAMPS7k1S",
     "0G419A41e1N217KM303n11031242010O22A72C525259616q4Y1TgoBCM4m1pt8tB2h3a20191C141011111j3X1",
     "qBIW22r1e1Bs341f4h3t12U35252522Z1B1P1I111E2DY1y3c2q1o8S3m1l1V1DT5b1AT2Z14714y3k2a3d18p1z",
     "2p1CVA9LA7P1W45201h111302MAM9UY2I11ALAPd2t161X20F3121Sg1S3SZ171RRr1ALAIDHm3f2x5Z1c15V10t",
     "8f161G2x1SA08Lg1Hk1KRMCq1v1120Di1W1OQZ1T0208Y130Cl1E3L010Z1H1OJ1W2610131E197k1c17212L161",
     "11430I0C4U910201b110P010i1q1I3K2Ul1K110y5k1f13a1l1K0x1g1D0e2Qb16z5h1u672027111NF010W372c",
     "1G010S0Ad170L0Bj1J0If2i6W1V181a1H0n1To36111b1L0P5111V1E0mAIF01C1X1V40m2rTe3m3He6Ws2Y3FmY",
     "1H5PvZ45tIqY7Tvu1fI7UHl2HTIl1G3V1K5IyDi1VDh250Z2CX2110Sxg68xd1f19ce9316111g9F0T220E38sCj",
     "h2i35C3879ha90aGi1A6G0gATIh1oFRg7T20zF613111E1f6f40vc131Q1110201913101060401010121110201",
     "010101011102316131310191G52141Gnn4Wji1W1ze46Z72vz5EWt7FWKmm2jHnm1eZ55bg4"]),
   (["sc", "scontinue"],
    ["i11C1xQ0iF0o51uF0id4050hZ21kc40ows1111S1T12120A0i51C1f20"]),
   (["st", "sterm"],
    ["X10T0ph10s42u50h12y70z101031j91xu11kP041yO0h61X51j1050ZA1iB3c51A121T2W61Y21vU192sg32w90D",
     "0M1vD0XaV10r81f7030fC1t21X30x41s42p41W80hwL021W21j50T0Y20jx21bf14i13Y61t33Y42a4160G1v211",
     "1k30o91t31WC15Eh31W82qG010Y81u21mD1fM1h21qVK1e40Y21B0vH1m90ftK0zy70"]),
   (["se", "sep"],
    ["e40ci81"]),
   (["sp"],
    ["9011J0Y40ou50il2Aa10l10Wa40"]),
   (["up", "upper"],
    ["Y2Pd3M16X1010101010101010101010101010101010101010101010101010101020101010101010102010101",
     "0101010101010101010101010101010101010101110103110111223111231111010111020111210113071111",
     "1101010101010101020101010101010101021101210101010101010101010101010101010101010101010101",
     "010101010107111201310101010f90103080601210111G18Z10223010101010101010101010105020112o1m1",
     "0101010101010101010101010101010109010101010101010101010101010101010101010101010101010101",
     "1101010101010201010101010101010101010101010101010101010101010101010101010101010101010101",
     "0101010101010101010102b1bV3b11050eNs2ud20XC010101010101010101010101010101010101010101010",
     "1010101010101010101010101010101010101010101010101010101010101010101010101010101010101010",
     "1010101010101010901010101010101010101010101010101010101010101010101010101010101010101010",
     "101010101010101010101010109785A78785B010101087O7878784B4B3C4B4i8040322220346010101323A15",
     "0QFJ0hQPgx1l1m10122010101310208210101010101010101010101010101010101010101010101010101010",
     "101010101010101010101010101010101010101010801040reW1010101010101010101010101010101010101",
     "010101010J010101010101010101010101010g40101010101010301010101010101010101010101010101010",
     "10101010101010101010101010A0101110101010401020103010101010101010101014141010101010101013",
     "10113050101010O0vbNPhd1d1h4Z1W5A1E1611Yv1o1X5Lrz2V1XtMV1cXRPQPQPQ01120212317QPQ1132716R1",
     "13141036RPQPQPQPQPQPUOX1OX1OX1OX1OX10Yn4X1lZ2P6P6P"])]

def sentenceBreak? (name : String) : Option RangeTable := lookupRuns sentenceBreakRuns name

end LayeredEnv.Unicode
