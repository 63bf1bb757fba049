import SourceAtlas.Text.Ranges

/-!
# Letter case

Lower and upper case of every script. A character may change into several, and a capital sigma
becomes a final sigma at the end of a word.
-/

namespace SourceAtlas

/-- Every `stride`-th code point from `first` to `last` changes by `offset`. -/
structure CaseRun where
  first : Nat
  last : Nat
  stride : Nat
  offset : Int

/-- The code point the run gives for `n`, when `n` is in the run. -/
def CaseRun.target? (run : CaseRun) (n : Nat) : Option Nat :=
  if run.first ≤ n ∧ n ≤ run.last ∧ (n - run.first) % run.stride = 0 then
    some (Int.ofNat n + run.offset).toNat
  else none

/-- The run that leads back. -/
def CaseRun.back (run : CaseRun) : CaseRun :=
  { first := (Int.ofNat run.first + run.offset).toNat
    last := (Int.ofNat run.last + run.offset).toNat
    stride := run.stride
    offset := -run.offset }

/-- A change of single code points. -/
def CaseRun.single (change : Nat × Int) : CaseRun :=
  ⟨change.1, change.1, 1, change.2⟩

/-- Ranges of capitals outside ASCII, with the distance to their small forms. -/
def capitalRanges : List (Nat × Nat × Int) :=
  [(192,214,32),(216,222,32),(393,394,205),(433,434,217),(904,906,37),(910,911,63),(913,929,32),
   (931,939,32),(1021,1023,-130),(1024,1039,80),(1040,1071,32),(1329,1366,48),(4256,4293,7264),
   (5024,5103,38864),(5104,5109,8),(7312,7354,-3008),(7357,7359,-3008),(7944,7951,-8),
   (7960,7965,-8),(7976,7983,-8),(7992,7999,-8),(8008,8013,-8),(8040,8047,-8),(8072,8079,-8),
   (8088,8095,-8),(8104,8111,-8),(8120,8121,-8),(8122,8123,-74),(8136,8139,-86),(8152,8153,-8),
   (8154,8155,-100),(8168,8169,-8),(8170,8171,-112),(8184,8185,-128),(8186,8187,-126),
   (8544,8559,16),(9398,9423,26),(11264,11311,48),(11390,11391,-10815),(65313,65338,32),
   (66560,66599,40),(66736,66771,40),(66928,66938,39),(66940,66954,39),(66956,66962,39),
   (66964,66965,39),(68736,68786,64),(71840,71871,32),(93760,93791,32),(125184,125217,34)]

/-- Capitals that stand alone, with the distance to their small forms. -/
def singleCapitals : List (Nat × Int) :=
  [(376,-121),(385,210),(390,206),(398,79),(399,202),(400,203),(403,205),(404,207),(406,211),
   (407,209),(412,211),(413,213),(415,214),(422,218),(425,218),(430,218),(439,219),(452,2),(455,2),
   (458,2),(497,2),(502,-97),(503,-56),(544,-130),(570,10795),(573,-163),(574,10792),(579,-195),
   (580,69),(581,71),(895,116),(902,38),(908,64),(975,8),(1012,-60),(1017,-7),(1216,15),(4295,7264),
   (4301,7264),(7838,-7615),(8025,-8),(8027,-8),(8029,-8),(8031,-8),(8124,-9),(8140,-9),(8172,-7),
   (8188,-9),(8486,-7517),(8490,-8383),(8491,-8262),(8498,28),(11362,-10743),(11363,-3814),
   (11364,-10727),(11373,-10780),(11374,-10749),(11375,-10783),(11376,-10782),(42877,-35332),
   (42893,-42280),(42922,-42308),(42923,-42319),(42924,-42315),(42925,-42305),(42926,-42308),
   (42928,-42258),(42929,-42282),(42930,-42261),(42931,928),(42948,-48),(42949,-42307),
   (42950,-35384)]

/-- Ranges in which every second character is a capital, with its small form behind it. -/
def alternatingCapitals : List (Nat × Nat) :=
  [(256,302),(306,310),(313,327),(330,374),(377,381),(386,388),(391,391),(395,395),(401,401),
   (408,408),(416,420),(423,423),(428,428),(431,431),(435,437),(440,440),(444,444),(453,453),
   (456,456),(459,475),(478,494),(498,500),(504,542),(546,562),(571,571),(577,577),(582,590),
   (880,882),(886,886),(984,1006),(1015,1015),(1018,1018),(1120,1152),(1162,1214),(1217,1229),
   (1232,1326),(7680,7828),(7840,7934),(8579,8579),(11360,11360),(11367,11371),(11378,11378),
   (11381,11381),(11392,11490),(11499,11501),(11506,11506),(42560,42604),(42624,42650),
   (42786,42798),(42802,42862),(42873,42875),(42878,42886),(42891,42891),(42896,42898),
   (42902,42920),(42932,42946),(42951,42953),(42960,42960),(42966,42968),(42997,42997)]

/-- Lower-case runs outside ASCII. -/
def lowerRuns : List CaseRun :=
  capitalRanges.map (fun (first, last, offset) => ⟨first, last, 1, offset⟩) ++
    singleCapitals.map CaseRun.single ++
    alternatingCapitals.map fun (first, last) => ⟨first, last, 2, 1⟩

/-- Letters that are not the small form of their capital, with the distance to it. -/
def variantLetters : List (Nat × Int) :=
  [(181,743),(305,-232),(383,-300),(453,-1),(456,-1),(459,-1),(498,-1),(837,84),(962,-31),(976,-62),
   (977,-57),(981,-47),(982,-54),(1008,-86),(1009,-80),(1013,-96),(7296,-6254),(7297,-6253),
   (7298,-6244),(7299,-6242),(7300,-6242),(7301,-6243),(7302,-6236),(7303,-6181),(7304,35266),
   (7835,-59),(8126,-7205)]

/-- Upper-case runs outside ASCII. -/
def upperRuns : List CaseRun :=
  variantLetters.map CaseRun.single ++ lowerRuns.map CaseRun.back

/-- Blocks of eight letters with an iota below, whose upper case is a capital and an iota. -/
def iotaBlocks : List (Nat × Nat) :=
  [(8064,7944),(8072,7944),(8080,7976),(8088,7976),(8096,8040),(8104,8040)]

/-- Characters whose upper case is several characters. -/
def upperSpecials : List (Nat × List Nat) :=
  iotaBlocks.flatMap (fun (first, capital) =>
    (List.range 8).map fun index => (first + index, [capital + index, 921])) ++
    [(223,[83,83]),(329,[700,78]),(496,[74,780]),(912,[921,776,769]),(944,[933,776,769]),
     (1415,[1333,1362]),(7830,[72,817]),(7831,[84,776]),(7832,[87,778]),(7833,[89,778]),
     (7834,[65,702]),(8016,[933,787]),(8018,[933,787,768]),(8020,[933,787,769]),
     (8022,[933,787,834]),(8114,[8122,921]),(8115,[913,921]),(8116,[902,921]),(8118,[913,834]),
     (8119,[913,834,921]),(8124,[913,921]),(8130,[8138,921]),(8131,[919,921]),(8132,[905,921]),
     (8134,[919,834]),(8135,[919,834,921]),(8140,[919,921]),(8146,[921,776,768]),
     (8147,[921,776,769]),(8150,[921,834]),(8151,[921,776,834]),(8162,[933,776,768]),
     (8163,[933,776,769]),(8164,[929,787]),(8166,[933,834]),(8167,[933,776,834]),(8178,[8186,921]),
     (8179,[937,921]),(8180,[911,921]),(8182,[937,834]),(8183,[937,834,921]),(8188,[937,921]),
     (64256,[70,70]),(64257,[70,73]),(64258,[70,76]),(64259,[70,70,73]),(64260,[70,70,76]),
     (64261,[83,84]),(64262,[83,84]),(64275,[1348,1350]),(64276,[1348,1333]),(64277,[1348,1339]),
     (64278,[1358,1350]),(64279,[1348,1341])]

/-- Characters with a case that are not skipped when a word's end is looked for. -/
def casedRanges : Ranges :=
  .ofLengths 0
    [65,26,6,26,47,1,10,1,4,1,5,23,1,31,1,195,1,4,4,208,1,27,192,4,2,2,3,3,1,1,6,1,1,3,1,1,1,20,1,
     83,1,139,8,166,1,38,9,41,2839,38,1,1,5,1,2,43,2,3,672,86,2,6,2178,9,7,43,2,3,64,44,63,13,1,34,
     101,278,2,6,2,38,2,6,2,8,1,1,1,1,1,1,1,31,2,53,1,7,1,1,3,3,1,7,3,4,2,6,4,13,5,3,1,7,261,1,4,1,
     2,10,1,1,3,5,6,1,1,1,1,1,1,4,1,6,4,1,2,4,5,5,4,1,17,32,3,2,817,52,1814,124,2,103,6,4,3,2,12,38,
     1,1,5,1,30994,46,18,28,134,78,1,23,3,4,1,59,5,2,1,1,1,5,27,2,3,1,821,43,5,9,7,80,20288,7,12,5,
     1033,26,6,26,1189,80,96,36,4,36,116,11,1,15,1,7,1,2,1,11,1,15,1,7,1,2,1731,51,13,51,2989,64,
     21856,64,25984,85,1,71,1,2,2,1,2,2,2,4,1,12,1,1,1,7,1,65,1,4,2,8,1,7,1,28,1,4,1,5,1,1,3,7,1,
     340,2,25,1,25,1,31,1,25,1,31,1,25,1,31,1,25,1,31,1,25,1,8,1844,10,1,20,2529,68,2028,26,6,26,6,
     26]

def caseIgnorableRanges : Ranges :=
  .ofLengths 0
    [39,1,6,1,11,1,35,1,1,1,71,1,4,1,1,1,4,1,2,2,503,192,4,2,4,1,9,2,1,1,251,7,207,1,5,1,49,45,1,1,
     1,2,1,2,1,1,44,1,11,6,10,11,1,1,35,1,10,21,16,1,101,8,1,10,1,4,33,1,1,1,30,27,91,11,58,11,4,1,
     2,1,24,24,43,3,44,1,7,2,6,8,41,58,55,1,1,1,4,8,4,1,3,7,10,2,13,1,15,1,58,1,4,4,8,1,20,2,26,1,2,
     2,57,1,4,2,4,2,2,3,3,1,30,2,3,1,11,2,57,1,4,5,1,2,4,1,20,2,22,6,1,1,58,1,2,1,1,4,8,1,7,2,11,2,
     30,1,61,1,12,1,50,1,3,1,55,1,1,3,5,3,1,4,7,2,11,2,29,1,58,1,2,1,6,1,5,2,20,2,28,2,57,2,4,4,8,1,
     20,2,29,1,72,1,7,3,1,1,90,1,2,7,11,9,98,1,2,9,9,1,1,6,74,2,27,1,1,1,1,1,55,14,1,5,1,2,5,11,1,
     36,9,1,102,4,1,6,1,2,2,2,25,2,4,3,16,4,13,1,2,2,6,1,15,1,94,1,608,3,946,3,29,2,30,2,30,2,64,2,
     1,7,8,1,2,11,3,1,5,1,45,5,51,1,65,2,34,1,118,3,4,2,9,1,6,3,219,2,2,1,58,1,1,7,1,1,1,1,2,8,6,10,
     2,1,39,1,8,31,49,4,48,1,1,5,1,1,5,1,40,9,12,2,32,4,2,2,1,3,56,1,1,2,3,1,1,3,58,8,2,2,64,6,82,3,
     1,13,1,7,4,1,6,1,3,2,50,63,13,1,34,101,445,1,1,3,11,3,13,3,13,3,13,2,12,5,8,2,10,1,2,1,2,5,49,
     5,1,10,1,1,13,1,16,13,51,33,2955,2,113,3,125,1,15,1,96,32,47,1,469,1,36,4,3,5,5,1,93,6,93,3,
     28438,1,1250,6,270,1,98,4,1,10,1,1,28,4,80,2,14,34,78,1,23,3,103,3,3,2,8,1,3,1,4,1,25,2,5,1,
     151,2,26,18,13,1,38,8,25,11,46,3,48,1,2,4,2,2,17,1,21,2,66,6,2,2,2,2,12,1,8,1,35,1,11,1,51,1,1,
     3,2,2,5,2,1,1,27,1,14,2,5,2,1,1,100,5,9,3,121,1,2,1,4,1,20272,1,147,17,573,16,3,1,12,16,34,1,2,
     1,169,1,7,1,6,1,11,1,35,1,1,1,47,1,45,2,67,1,21,3,513,1,226,1,149,5,1029,6,1,42,1,9,582,3,1,2,
     5,4,40,3,4,1,165,2,573,4,387,2,153,11,49,4,123,1,54,15,41,1,2,2,10,3,49,4,2,2,2,1,4,1,10,1,50,
     3,36,5,1,8,62,1,12,2,52,9,10,4,2,1,95,3,2,1,1,2,6,1,160,1,3,8,21,2,57,2,3,1,37,7,3,5,195,8,2,3,
     1,1,23,1,84,6,1,1,4,2,1,2,238,4,6,2,1,2,27,2,85,8,2,1,1,2,106,1,1,1,2,6,1,1,101,3,2,4,1,5,259,
     9,1,2,256,2,1,1,4,1,144,4,2,2,4,1,32,10,40,6,2,4,8,1,9,6,2,3,46,13,1,2,406,7,1,6,1,1,82,22,2,7,
     1,2,1,2,122,6,3,1,1,2,1,7,1,1,72,2,3,1,1,1,347,2,5435,9,14007,5,59,7,9,4,1035,1,63,17,64,2,1,2,
     16395,4,1,7,1,2,3230,2,1,4,4700,46,2,23,544,3,9,16,2,7,30,4,148,3,1979,55,4,50,8,1,14,1,22,5,1,
     15,1360,7,1,17,2,7,1,2,1,5,261,14,368,1,61,4,1504,7,109,8,2735,5,789505,1,30,96,128,240]

def lowerChar (c : Char) : List Char :=
  if c.toNat < 0x80 then [c.toLower]
  else if c.toNat = 0x130 then ['i', Char.ofNat 0x307]
  else [Char.ofNat ((lowerRuns.findSome? (·.target? c.toNat)).getD c.toNat)]

def upperChar (c : Char) : List Char :=
  if c.toNat < 0x80 then [c.toUpper]
  else
    match upperSpecials.lookup c.toNat with
    | some codes => codes.map Char.ofNat
    | none => [Char.ofNat ((upperRuns.findSome? (·.target? c.toNat)).getD c.toNat)]

def startsCased (text : List Char) : Bool :=
  match text.dropWhile caseIgnorableRanges.contains with
  | [] => false
  | c :: _ => casedRanges.contains c

/-- Lower case with the characters before the text at hand, last one first. -/
def lowerFrom (before : List Char) : List Char → List Char
  | [] => []
  | c :: rest =>
    let changed :=
      if c.toNat = 0x3A3 then
        if startsCased before && !startsCased rest then [Char.ofNat 0x3C2] else [Char.ofNat 0x3C3]
      else lowerChar c
    changed ++ lowerFrom (c :: before) rest

def lower (text : List Char) : List Char :=
  lowerFrom [] text

def upper (text : List Char) : List Char :=
  text.flatMap upperChar

end SourceAtlas
