import LayeredEnv.Unicode.RangeTable

namespace LayeredEnv.Unicode

def scriptRuns : List (List String × List String) :=
  [(["adlm", "adlam"],
    ["bdb4i24941"]),
   (["ahom"],
    ["Vfh2Q2E4M"]),
   (["hluw", "anatolianhieroglyphs"],
    ["oet2tI"]),
   (["arab", "arabic"],
    ["mn14151D121V119BP1j31X1n2l1s7U115h21SWmX2q3GqB2m22r170W1Fo341f4XY4Ua22t13mhx131Q11102019",
     "13101060401010121110201010101011102316131310191G52141Gq11"]),
   (["armn", "armenian"],
    ["wg1b12n122jhY24"]),
   (["avst", "avestan"],
    ["xYe2r136"]),
   (["bali", "balinese"],
    ["za7j21n1"]),
   (["bamu", "bamum"],
    ["Vhi1u2Xip1fI"]),
   (["bass", "bassavah"],
    ["ZpY3T25"]),
   (["batk", "batak"],
    ["ah7p183"]),
   (["beng", "bengali"],
    ["jl2317212L1610332821238041142O"]),
   (["bhks", "bhaiksuki"],
    ["epi281i11DAS"]),
   (["bopo", "bopomofo"],
    ["XO1qdCg1o3V1"]),
   (["brah", "brahmi"],
    ["bjf2k24Z190"]),
   (["brai", "braille"],
    ["fpAc8"]),
   (["bugi", "buginese"],
    ["rx6R21"]),
   (["buhd", "buhid"],
    ["Vb6J"]),
   (["cans", "canadianaboriginal"],
    ["af5oKXIc2fpb2F"]),
   (["cari", "carian"],
    ["swb2m1"]),
   (["aghb", "caucasianalbanian"],
    ["xmc2p1B0"]),
   (["cakm", "chakma"],
    ["jrf2q11H"]),
   (["cham"],
    ["wdj1s19D2923"]),
   (["cher", "cherokee"],
    ["Xc5s225pfe1m2"]),
   (["chrs", "chorasmian"],
    ["ogf2R"]),
   (["zyyy", "common"],
    ["0X2Q5Qk11E14N0V10kEc1542Js30906010mK060E030W10W50pG0a41We10XD3g90Vn12e21m6110pd10D073151",
     "220yOB2t21A3A1EHW1W2b112251Q1Gf124jLMALxTd8cK2V11g3lGV3zCK101OF743y2130x21s4FW1b190m1W2V",
     "1n2l10v2h5pv6W2zqNX1e32f59w70a50sC0E1qtL1r69MY11I13s401V1Q5QAA0j11X2616A4f824i138n2Cp1i1",
     "g7QWjn13vX4W86WEW5r3y1x7Ac12z13G817T4y1w6JCJCt29Og4r21d2112021231B10161X21327161R1314103",
     "61yA2h92n1ui5a2j2y1tMh14b3CE2E1E1a1An5u1P11Dh14871E5z4rV14G3C3u34W36B40FB4t1896d18T2B41V",
     "2yACD2C395t17E2A687r41d3WiiQ0UX3"]),
   (["copt", "qaac", "coptic"],
    ["XW1DztAr356"]),
   (["xsux", "cuneiform"],
    ["frj2rTe3m314Be6"]),
   (["cprt", "cypriot"],
    ["Zfd25201h1113020"]),
   (["cpmn", "cyprominoan"],
    ["vvn2a3"]),
   (["cyrl", "cyrillic"],
    ["WX1d42i5lb6Aa50j20jg4V1WWW1X3WfN1fby1z1X10"]),
   (["dsrt", "deseret"],
    ["Ydc2m2"]),
   (["deva", "devanagari"],
    ["fh2n24E2PZjg1V1igU9"]),
   (["diak", "divesakuru"],
    ["lvh262027111T112B99"]),
   (["dogr", "dogra"],
    ["dnh2x1"]),
   (["dupl", "duployan"],
    ["ndu3i35C387923"]),
   (["egyp", "egyptianhieroglyphs"],
    ["jzn2tZ1AvZ4"]),
   (["elba", "elbasan"],
    ["glc2d1"]),
   (["elym", "elymaic"],
    ["aif2M"]),
   (["ethi", "ethiopic"],
    ["pt4f2132610132e1132W1132610132E1u1132Z22V13Pww6M9616161616161616gfX1525259616dgr2613111E"]),
   (["gara", "garay"],
    ["kre2b13S81"]),
   (["geor", "georgian"],
    ["ei4b110502g113kX3g122bf4b11050"]),
   (["glag", "glagolitic"],
    ["grBX3iWs361G261114"]),
   (["goth", "gothic"],
    ["hWc2Q"]),
   (["gran", "grantha"],
    ["zcg2317212L1611142821222060562634"]),
   (["grek", "greek"],
    ["hS3122310401012101J1V2EFqq64o1444r20fAL252b125271010101U2q11E1D251I2218l90oua10zvMl2H0sk",
     "t1c2"]),
   (["gujr", "gujarati"],
    ["st2218121L16111429121220F32B76"]),
   (["gong", "gunjalagondi"],
    ["pVj25111a1111579"]),
   (["guru", "gurmukhi"],
    ["op2215412L16111111201441223073107G"]),
   (["gukh", "gurungkhema"],
    ["YWW3v1"]),
   (["han", "hani"],
    ["VhCP1v2Cw6l1010P8E3YV1ov6X2ZvLzqNtB2h3jaV11C1ogc1Wji1W1ze46Z72vz5EWt7FWKmm2jHnm1eZ55bg4"]),
   (["hang", "hangul"],
    ["hl4c8cW81e8V3p3UY2UrpV1SsKgoBCM4m1gmAU35252522"]),
   (["rohg", "hanifirohingya"],
    ["ipe2d189"]),
   (["hano", "hanunoo"],
    ["zZ6K"]),
   (["hatr", "hatran"],
    ["gmd2I1154"]),
   (["hebr", "hebrew"],
    ["zj1s18Q45leY2P1410111119"]),
   (["hira", "hiragana"],
    ["kvCs262zYe3c9I0T2YcH0"]),
   (["armi", "imperialaramaic"],
    ["bhd2L18"]),
   (["qaai", "zinh", "inherited"],
    ["tOn3y81nEAQ0sN3fo4UmG21C16406031h6W2xG1d6W1rW43j31ars1FGDjV10e70Wg40nVo1j12MmH2H726U3myt",
     "Qr7"]),
   (["phli", "inscriptionalpahlavi"],
    ["Vce2I57"]),
   (["prti", "inscriptionalparthian"],
    ["zae2L27"]),
   (["java", "javanese"],
    ["sZj1k22941"]),
   (["kthi", "kaithi"],
    ["fnf2Z2A0"]),
   (["knda", "kannada"],
    ["cf3C121M19142812137161132912"]),
   (["kana", "katakana"],
    ["nyCw222s7Fr6k11u2Ygs191i1Xzk13161110d92o10E3"]),
   (["kawi"],
    ["Xjj2G1e13S"]),
   (["kali", "kayahli"],
    ["oVj1j110"]),
   (["khar", "kharoshthi"],
    ["pvd231157121S224978"]),
   (["kits", "khitansmallscript"],
    ["XVa30vb7ZFf10"]),
   (["khmr", "khmer"],
    ["Xd6V32969qFV1"]),
   (["khoj", "khojki"],
    ["rzf2H1k1"]),
   (["sind", "khudawadi"],
    ["hag2w159"]),
   (["krai", "kiratrai"],
    ["deZ3v1"]),
   (["lao", "laoo"],
    ["tv3110141N101M2410161923"]),
   (["latn", "latin"],
    ["Y2P6Pl10F05M1U1jEd14ny6b16m1535C1c2Y2c8xB0D0GCm4160R0He1lw2V1rpW1d33Z2211017LDfQg11813cb",
     "L6wX1P6Pda251f118rfv1U65"]),
   (["lepc", "lepcha"],
    ["cj7t13E32"]),
   (["limb", "limbu"],
    ["jp6U1B4B403B"]),
   (["lina", "lineara"],
    ["otc2VA9LA7"]),
   (["linb", "linearb"],
    ["Xbb2B1P1I111E2DY1y3"]),
   (["lisu"],
    ["Wxh1l1aqW10"]),
   (["lyci", "lycian"],
    ["rvb2S"]),
   (["lydi", "lydian"],
    ["iod2P50"]),
   (["mahj", "mahajani"],
    ["Wuf2c1"]),
   (["maka", "makasar"],
    ["Wij2O"]),
   (["mlym", "malayalam"],
    ["gj3C121o112154F2P"]),
   (["mand", "mandaic"],
    ["Zb2R20"]),
   (["mani", "manichaean"],
    ["vWe2c14B"]),
   (["marc", "marchen"],
    ["xsi2V12L1D"]),
   (["gonm", "masaramgondi"],
    ["mxi26111h130111889"]),
   (["medf", "medefaidrin"],
    ["lmZ3x2"]),
   (["mtei", "meeteimayek"],
    ["Ylj1Mk6j129"]),
   (["mend", "mendekikakui"],
    ["yza4f62F"]),
   (["merc", "meroiticcursive"],
    ["msd2N4J2j1"]),
   (["mero", "meroitichieroglyphs"],
    ["lrd2V1"]),
   (["miao", "plrd"],
    ["rsZ3h24u17G"]),
   (["modi"],
    ["sWh2b2B9"]),
   (["mong", "mongolian"],
    ["bh61201J6v27g1Zna2C"]),
   (["mro", "mroo"],
    ["kkY3U1941"]),
   (["mult", "multani"],
    ["vYg2610131E1A"]),
   (["mymr", "myanmar"],
    ["Zd4Z5mue1UZ3V1jvSJ"]),
   (["nbat", "nabataean"],
    ["djd2U88"]),
   (["nagm", "nagmundari"],
    ["oZa4f1"]),
   (["nand", "nandinagari"],
    ["qVi272j12A"]),
   (["talu", "newtailue"],
    ["nt6h14P6A31"]),
   (["newa"],
    ["clg2y214"]),
   (["nko", "nkoo"],
    ["VX2w122"]),
   (["nshu", "nushu"],
    ["zzZ30gjHsC"]),
   (["hmnp", "nyiakengpuachuehmong"],
    ["ZZZ4i13D2941"]),
   (["ogam", "ogham"],
    ["uz5S"]),
   (["olck", "olchiki"],
    ["ul7l1"]),
   (["onao", "olonal"],
    ["wha4g140"]),
   (["hung", "oldhungarian"],
    ["ele2o1Do175"]),
   (["ital", "olditalic"],
    ["vzb2Z192"]),
   (["narb", "oldnortharabian"],
    ["tzd2V1"]),
   (["perm", "oldpermic"],
    ["iXc2g1"]),
   (["xpeo", "oldpersian"],
    ["Vac2Z14D"]),
   (["sogo", "oldsogdian"],
    ["yaf2d1"]),
   (["sarb", "oldsoutharabian"],
    ["syd2V1"]),
   (["orkh", "oldturkic"],
    ["ahe2f2"]),
   (["ougr", "olduyghur"],
    ["mef2P"]),
   (["orya", "oriya"],
    ["wx2217212L1611142821227241142H"]),
   (["osge", "osage"],
    ["tic2Z14Z1"]),
   (["osma", "osmanya"],
    ["chc2T29"]),
   (["hmng", "pahawhhmong"],
    ["qqY3c2A9161K5I"]),
   (["palm", "palmyrene"],
    ["cid2V1"]),
   (["pauc", "paucinhau"],
    ["zei2u1"]),
   (["phag", "phagspa"],
    ["iui1t1"]),
   (["phnx", "phoenician"],
    ["hnd2R30"]),
   (["phlp", "psalterpahlavi"],
    ["Wde2H73C6"]),
   (["rjng", "rejang"],
    ["aXj1Z1B0"]),
   (["runr", "runic"],
    ["vV6h23A"]),
   (["samr", "samaritan"],
    ["XZ2j12E"]),
   (["saur", "saurashtra"],
    ["kwi1c28B"]),
   (["shrd", "sharada"],
    ["nvf2X3"]),
   (["shaw", "shavian"],
    ["qfc2l1"]),
   (["sidd", "siddham"],
    ["oxg2r12b1"]),
   (["sgnw", "signwriting"],
    ["urW4VLF41E"]),
   (["sinh", "sinhala"],
    ["ln321H3N181026304510176922jcc2J"]),
   (["sogd", "sogdian"],
    ["kcf2f1"]),
   (["sora", "sorasompeng"],
    ["xpf2O79"]),
   (["soyo", "soyombo"],
    ["gbi2p2"]),
   (["sund", "sundanese"],
    ["Yf7W2d87"]),
   (["sunu", "sunuwar"],
    ["cni2X1E9"]),
   (["sylo", "sylotinagri"],
    ["gsi1i1"]),
   (["syrc", "syriac"],
    ["uv1D1x122t8A"]),
   (["tglg", "tagalog"],
    ["yY6L90"]),
   (["tagb", "tagbanwa"],
    ["Wc6C1211"]),
   (["tale", "taile"],
    ["Ws6T24"]),
   (["lana", "taitham"],
    ["sy6V21S2A696D"]),
   (["tavt", "taiviet"],
    ["Vij1Z2O4"]),
   (["takr", "takri"],
    ["wah2v169"]),
   (["taml", "tamil"],
    ["WX3115321331101131323B4432132060EKfjg2n1D0"]),
   (["tnsa", "tangsa"],
    ["WmY3l219"]),
   (["tang", "tangut"],
    ["yzZ30V1xg68sOlG8"]),
   (["telu", "telugu"],
    ["Yb3C121M1F281213711220232978"]),
   (["thaa", "thaana"],
    ["yz1n1"]),
   (["thai"],
    ["pr3v15R"]),
   (["tibt", "tibetan"],
    ["wz3e21Z14c11Z11E1641"]),
   (["tfng", "tifinagh"],
    ["aWCt171E0"]),
   (["tirh", "tirhuta"],
    ["gpg2e289"]),
   (["todr", "todhri"],
    ["mrc2p1"]),
   (["toto"],
    ["WmZ4U"]),
   (["tutg", "tulutigalari"],
    ["Yhg2910201b119102013191181"]),
   (["ugar", "ugaritic"],
    ["zYc2T10"]),
   (["vai", "vaii"],
    ["nyh1p9"]),
   (["vith", "vithkuqi"],
    ["zoc2A1E16111A1E1611"]),
   (["wcho", "wancho"],
    ["nnZ4v150"]),
   (["wara", "warangciti"],
    ["ish2p2C0"]),
   (["yezi", "yezidi"],
    ["uWf2f11221"]),
   (["yi", "yiii"],
    ["eog1mb13s1"]),
   (["zanb", "zanabazarsquare"],
    ["tYi2e2"])]

def script? (name : String) : Option RangeTable := lookupRuns scriptRuns name

end LayeredEnv.Unicode
