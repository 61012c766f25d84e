import LayeredEnv.Unicode.Script

namespace LayeredEnv.Unicode

/-- The scripts whose extended set differs from the script itself. -/
def scriptExtensionRuns : List (List String × List String) :=
  [(["adlm", "adlam"],
    ["mo10W10ay60Zr30byt3i24941"]),
   (["arab", "arabic"],
    ["mn141x61X1n2l1s7U115h21Skb60Zr30gos1q3GfE2r170W1Fo341f4YW1RXW3Ua22t13mhx131Q111020191310",
     "1060401010121110201010101011102316131310191G52141Gq11"]),
   (["armn", "armenian"],
    ["WP0uHb12n122jhY24"]),
   (["avst", "avestan"],
    ["x50kYC1iuw1r136"]),
   (["beng", "bengali"],
    ["nM0fs11H1Q317212L1610332821238041142OhV501021108080204022xdb10"]),
   (["bopo", "bopomofo"],
    ["yM012D0G1eVC2491CA32060e609g1o3V1yjs11Y94"]),
   (["bugi", "buginese"],
    ["rx6R21mdc10"]),
   (["buhd", "buhid"],
    ["pa619J"]),
   (["cari", "carian"],
    ["x50ci8020aq30dnu1m1"]),
   (["aghb", "caucasianalbanian"],
    ["xO0i10i10Xqb2p1B0"]),
   (["cakm", "chakma"],
    ["so29Zq19ygb2q11H"]),
   (["cher", "cherokee"],
    ["tO21061M1B1qg4s225pfe1m2"]),
   (["zyyy", "common"],
    ["0X2Q5Qk11B1114N0V10kE2191030181015542JX406010mK0y60pG0di10XD3he4B2W11U1911161A3A1EHW1W2b",
     "112251Q1Gf124jLMALxTd8cK2V11g3lGM1N2913101PkD030D0D0L0XHNV10n1EC3b595X3V10pv6W2crNPe32kV",
     "10E1jVM9MK2B1I13s401V1Q5Q5Y4616A4zCCp1i1cur1W86WEW5r3y1x7Ac12z13G817T4y1w6JCJCt2R6g4r21d",
     "2112021231B10161X21327161R131410361yA2h92n1ui5a2j2y1tMh14b3CE2E1E1a1An5u1P11Dh148N5z4rV1",
     "4G3C3u34W36B40FB4t1896d18T2B41V2yACD2C395t17E2A687r41d3WiiQ0UX3"]),
   (["copt", "qaac", "coptic"],
    ["x50vI03110k31k3DztAr356V90aqu1R"]),
   (["cprt", "cypriot"],
    ["fjb224i138st15201h1113020"]),
   (["cpmn", "cyprominoan"],
    ["fjb21jhCa3"]),
   (["cyrl", "cyrillic"],
    ["nM0a221010102050q7t9lb6Aa50j20Y40fc4V1a20vyV1X3WfN1fby1z1X10"]),
   (["deva", "devanagari"],
    ["nM0rp1p22g1kZ5c111rW10wVa19g5V1igU9"]),
   (["dogr", "dogra"],
    ["mk2Bzdg19WtTx1"]),
   (["dupl", "duployan"],
    ["x50XJ110O1vjB0syh3i35C387927"]),
   (["elba", "elbasan"],
    ["x50VJ0hrb2d1"]),
   (["ethi", "ethiopic"],
    ["cP0hz3f2132610132e1132W1132610132E1u1132Z22V13Pww6M9616161616161616gfX1525259616dgr26131",
     "11E"]),
   (["gara", "garay"],
    ["yn10E030xXd2b13S81"]),
   (["geor", "georgian"],
    ["x50td10my2b110502l1kX3g122sT0ig3b11050g80"]),
   (["glag", "glagolitic"],
    ["x50yI010fC020e80kW30xX40aY3X3nF0gVW10ilq261G261114"]),
   (["goth", "gothic"],
    ["x50zI120e10Vbb2Q"]),
   (["gran", "grantha"],
    ["yj21H1pKDck4011U231rW10yjX2317212L1611141921222060562634We3110"]),
   (["grek", "greek"],
    ["x50vI1201010A0k1020g172310401012101J1V2EFqq64o1444r22dAL252b125271010101U2q11E1D251I2218",
     "W30j60oua10zvMl2H0skt1c2"]),
   (["gujr", "gujarati"],
    ["yj21H1Z9218121L16111429121220F32B76Xwf19"]),
   (["gong", "gunjalagondi"],
    ["x50oe21Wlg25111a1111579"]),
   (["guru", "gurmukhi"],
    ["yj21H1V5215412L16111111201441223073107GkVg19"]),
   (["gukh", "gurungkhema"],
    ["nk20kly2v1"]),
   (["han", "hani"],
    ["x50XbCP1v2Cw6QF121C1C1C2068W60t4FW1b190m1d1u1m1FBp10v2OA4Y3U1ov6X2ZvLuv17xuLtB2h3cS1Y94x",
     "yT1C1YkQHxb81zo3Wji1W1ze46Z72vz5EWt7FWKmm2jHnm1eZ55bg4"]),
   (["hang", "hangul"],
    ["hl4c8tz72491CE260e60r1V3p3UY2UrpV1SsKgoBCM4m1abA1Y94w1U35252522"]),
   (["rohg", "hanifirohingya"],
    ["yn10E030W10s40Vvc2d189"]),
   (["hano", "hanunoo"],
    ["zZ6M"]),
   (["hebr", "hebrew"],
    ["VP1xKs18Q45leY2P1410111119"]),
   (["hira", "hiragana"],
    ["itC2491CG510413s227x21cqs11Y94A0j11mzk1c9I0T2YcH0"]),
   (["qaai", "zinh", "inherited"],
    ["dP0201B1136202F111H1413Wn11fo4UgOr11014xG1d6V1mww1FGDjV10zns1j12MmH2H726U3mytQr7"]),
   (["java", "javanese"],
    ["sZj1k21A41"]),
   (["kthi", "kaithi"],
    ["ok29lt90ikW19YtRZ2A0"]),
   (["knda", "kannada"],
    ["yj21H1oPC121M19142812137161132912zb401160N010tXb15"]),
   (["kana", "katakana"],
    ["yO0T0kyB2491CG51041y233X3s7Fr6k11u2tWs11Y9V2Vzk13161110d92o10E3"]),
   (["kali", "kayahli"],
    ["oVj1l1"]),
   (["khoj", "khojki"],
    ["Vx29nwf19kaSH1k1"]),
   (["sind", "khudawadi"],
    ["mk21eeg19agSw159"]),
   (["latn", "latin"],
    ["Y2P6Pl10C0205M1U1jE30A01210901064RE1110C0227111c10504Cy81md11cW20cb3b16m1535C1c2v107c8t9",
     "0Y20D0GCq20v1160R0He1lw2V1ZD0jbW17Qd33Z2211017LDs90mGg11813cbL6wX1P6Pda251f118rfv1U65"]),
   (["limb", "limbu"],
    ["nk20vZ4U1B4B403B"]),
   (["lina", "lineara"],
    ["mjb2i1od1VA9LA7"]),
   (["linb", "linearb"],
    ["Xbb2B1P1I111E2DY1y3524i138"]),
   (["lisu"],
    ["nM0G0mWC1dYV1l1aqW10"]),
   (["lyci", "lycian"],
    ["ao80lcy1S"]),
   (["lydi", "lydian"],
    ["x50lYC0yew1P50"]),
   (["mahj", "mahajani"],
    ["x50oe2Bzdg19uzRc1"]),
   (["mlym", "malayalam"],
    ["yj21H1sTC121o112154F2PtX40N0vXb12"]),
   (["mand", "mandaic"],
    ["op10kGR20"]),
   (["mani", "manichaean"],
    ["op10bhc2c14B"]),
   (["gonm", "masaramgondi"],
    ["mk21yhg26111h130111889"]),
   (["mero", "meroitichieroglyphs"],
    ["do80cYV2V1"]),
   (["modi"],
    ["xti19lcTb2B9"]),
   (["mong", "mongolian"],
    ["bh6P6v27g1XV20ob4153Xgz1C"]),
   (["mult", "multani"],
    ["ws29pfd2610131E1A"]),
   (["mymr", "myanmar"],
    ["Zd4Z5uoe10r5UZ3V1jvSJ"]),
   (["nand", "nandinagari"],
    ["mk21xS9xc408070nXb15nbU72j12A"]),
   (["nko", "nkoo"],
    ["yn10E030iDw122cfY21"]),
   (["onao", "olonal"],
    ["mk21dxX4g140"]),
   (["hung", "oldhungarian"],
    ["ao8020aq30F0ebx1o1Do175"]),
   (["perm", "oldpermic"],
    ["x50vI052A0vB0Zwa2g1"]),
   (["orkh", "oldturkic"],
    ["ao80cq30rXx1f2"]),
   (["ougr", "olduyghur"],
    ["op10uic20Xb1P"]),
   (["orya", "oriya"],
    ["yj21H1dD217212L1611142821227241142Hmo40N0"]),
   (["osge", "osage"],
    ["uO02060j20Zmb2Z14Z1"]),
   (["phag", "phagspa"],
    ["dh6110ha20pb40yVW1t1"]),
   (["phlp", "psalterpahlavi"],
    ["op10hnc2H73C6"]),
   (["runr", "runic"],
    ["vV6v2"]),
   (["samr", "samaritan"],
    ["XZ2j12EgYA0"]),
   (["shrd", "sharada"],
    ["yj20bb50102120iYb1520hWSX3"]),
   (["shaw", "shavian"],
    ["x50sZc2l1"]),
   (["sinh", "sinhala"],
    ["mk21xX121H3N181026304510176922tz30pcY2J"]),
   (["sogd", "sogdian"],
    ["op10vmd2f1"]),
   (["sunu", "sunuwar"],
    ["tO1109020S030vrh2X1E9"]),
   (["sylo", "sylotinagri"],
    ["mk21Z49eYg1i1"]),
   (["syrc", "syriac"],
    ["wO12110L0227110nN0E120W10AAQ0o4D1x122t8Azr5010"]),
   (["tglg", "tagalog"],
    ["yY6L90L1"]),
   (["tagb", "tagbanwa"],
    ["pa61f1C1211"]),
   (["tale", "taile"],
    ["tO15130Vl39lh2T24"]),
   (["takr", "takri"],
    ["mk21eeg19pgTv169"]),
   (["taml", "tamil"],
    ["yj21H1iH115321331101131323B4432132060EKfk40xeb10tcS010t11ff3n1D0"]),
   (["tang", "tangut"],
    ["wsCFzF0mqr20V1xg68sOlG8"]),
   (["telu", "telugu"],
    ["yj21H1kLC121M1F281213711220232978Wg40N0"]),
   (["thaa", "thaana"],
    ["yn10E120X29z8n1mnY20A0"]),
   (["thai"],
    ["nM0Q0h10j10dw2v15R"]),
   (["tibt", "tibetan"],
    ["wz3e21Z14c11Z11E1641rm83"]),
   (["tfng", "tifinagh"],
    ["vO0102010XcBt171E0"]),
   (["tirh", "tirhuta"],
    ["yj21H1ib50vXb19ZvSe289"]),
   (["todr", "todhri"],
    ["uO020209010h20rub2p1"]),
   (["toto"],
    ["nM0iuY4U"]),
   (["tutg", "tulutigalari"],
    ["li39bd4010tXb15W60ygS910201b119102013191181"]),
   (["yezi", "yezidi"],
    ["yn10E030X29vfd2f11221"]),
   (["yi", "yiii"],
    ["itC15927b70tmTmb13s1bZO4"])]

def scriptExtensions? (name : String) : Option RangeTable :=
  (lookupRuns scriptExtensionRuns name).or (script? name)

end LayeredEnv.Unicode
