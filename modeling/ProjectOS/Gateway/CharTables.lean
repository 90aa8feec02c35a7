import ProjectOS.Lib.Text

/-! The classes of characters the tokenizer knows, as tables of ranges of
code points. -/

namespace ProjectOS.Gateway

def droppedCategoryRanges : List (Nat × Nat) :=
  [(0,31),(127,159),(173,173),(1536,1541),(1564,1564),(1757,1757),(1807,1807),(2192,2193),
   (2274,2274),(6158,6158),(8203,8207),(8234,8238),(8288,8292),(8294,8303),(55296,63743),
   (65279,65279),(65529,65531),(69821,69821),(69837,69837),(78896,78911),(113824,113827),
   (119155,119162),(917505,917505),(917536,917631),(983040,1048573),(1048576,1114109)]

def punctuationRanges : List (Nat × Nat) :=
  [(33,47),(58,64),(91,96),(123,126),(161,161),(167,167),(171,171),(182,183),(187,187),(191,191),
   (894,894),(903,903),(1370,1375),(1417,1418),(1470,1470),(1472,1472),(1475,1475),(1478,1478),
   (1523,1524),(1545,1546),(1548,1549),(1563,1563),(1565,1567),(1642,1645),(1748,1748),(1792,1805),
   (2039,2041),(2096,2110),(2142,2142),(2404,2405),(2416,2416),(2557,2557),(2678,2678),(2800,2800),
   (3191,3191),(3204,3204),(3572,3572),(3663,3663),(3674,3675),(3844,3858),(3860,3860),(3898,3901),
   (3973,3973),(4048,4052),(4057,4058),(4170,4175),(4347,4347),(4960,4968),(5120,5120),(5742,5742),
   (5787,5788),(5867,5869),(5941,5942),(6100,6102),(6104,6106),(6144,6154),(6468,6469),(6686,6687),
   (6816,6822),(6824,6829),(6990,6991),(7002,7008),(7037,7039),(7164,7167),(7227,7231),(7294,7295),
   (7360,7367),(7379,7379),(8208,8231),(8240,8259),(8261,8273),(8275,8286),(8317,8318),(8333,8334),
   (8968,8971),(9001,9002),(10088,10101),(10181,10182),(10214,10223),(10627,10648),(10712,10715),
   (10748,10749),(11513,11516),(11518,11519),(11632,11632),(11776,11822),(11824,11855),
   (11858,11869),(12289,12291),(12296,12305),(12308,12319),(12336,12336),(12349,12349),
   (12448,12448),(12539,12539),(42238,42239),(42509,42511),(42611,42611),(42622,42622),
   (42738,42743),(43124,43127),(43214,43215),(43256,43258),(43260,43260),(43310,43311),
   (43359,43359),(43457,43469),(43486,43487),(43612,43615),(43742,43743),(43760,43761),
   (44011,44011),(64830,64831),(65040,65049),(65072,65106),(65108,65121),(65123,65123),
   (65128,65128),(65130,65131),(65281,65283),(65285,65290),(65292,65295),(65306,65307),
   (65311,65312),(65339,65341),(65343,65343),(65371,65371),(65373,65373),(65375,65381),
   (65792,65794),(66463,66463),(66512,66512),(66927,66927),(67671,67671),(67871,67871),
   (67903,67903),(68176,68184),(68223,68223),(68336,68342),(68409,68415),(68505,68508),
   (68974,68974),(69293,69293),(69461,69465),(69510,69513),(69703,69709),(69819,69820),
   (69822,69825),(69952,69955),(70004,70005),(70085,70088),(70093,70093),(70107,70107),
   (70109,70111),(70200,70205),(70313,70313),(70612,70613),(70615,70616),(70731,70735),
   (70746,70747),(70749,70749),(70854,70854),(71105,71127),(71233,71235),(71264,71276),
   (71353,71353),(71484,71486),(71739,71739),(72004,72006),(72162,72162),(72255,72262),
   (72346,72348),(72350,72354),(72448,72457),(72673,72673),(72769,72773),(72816,72817),
   (73463,73464),(73539,73551),(73727,73727),(74864,74868),(77809,77810),(92782,92783),
   (92917,92917),(92983,92987),(92996,92996),(93549,93551),(93847,93850),(94178,94178),
   (113823,113823),(121479,121483),(124415,124415),(125278,125279)]

def nonspacingMarkRanges : List (Nat × Nat) :=
  [(768,879),(1155,1159),(1425,1469),(1471,1471),(1473,1474),(1476,1477),(1479,1479),(1552,1562),
   (1611,1631),(1648,1648),(1750,1756),(1759,1764),(1767,1768),(1770,1773),(1809,1809),(1840,1866),
   (1958,1968),(2027,2035),(2045,2045),(2070,2073),(2075,2083),(2085,2087),(2089,2093),(2137,2139),
   (2199,2207),(2250,2273),(2275,2306),(2362,2362),(2364,2364),(2369,2376),(2381,2381),(2385,2391),
   (2402,2403),(2433,2433),(2492,2492),(2497,2500),(2509,2509),(2530,2531),(2558,2558),(2561,2562),
   (2620,2620),(2625,2626),(2631,2632),(2635,2637),(2641,2641),(2672,2673),(2677,2677),(2689,2690),
   (2748,2748),(2753,2757),(2759,2760),(2765,2765),(2786,2787),(2810,2815),(2817,2817),(2876,2876),
   (2879,2879),(2881,2884),(2893,2893),(2901,2902),(2914,2915),(2946,2946),(3008,3008),(3021,3021),
   (3072,3072),(3076,3076),(3132,3132),(3134,3136),(3142,3144),(3146,3149),(3157,3158),(3170,3171),
   (3201,3201),(3260,3260),(3263,3263),(3270,3270),(3276,3277),(3298,3299),(3328,3329),(3387,3388),
   (3393,3396),(3405,3405),(3426,3427),(3457,3457),(3530,3530),(3538,3540),(3542,3542),(3633,3633),
   (3636,3642),(3655,3662),(3761,3761),(3764,3772),(3784,3790),(3864,3865),(3893,3893),(3895,3895),
   (3897,3897),(3953,3966),(3968,3972),(3974,3975),(3981,3991),(3993,4028),(4038,4038),(4141,4144),
   (4146,4151),(4153,4154),(4157,4158),(4184,4185),(4190,4192),(4209,4212),(4226,4226),(4229,4230),
   (4237,4237),(4253,4253),(4957,4959),(5906,5908),(5938,5939),(5970,5971),(6002,6003),(6068,6069),
   (6071,6077),(6086,6086),(6089,6099),(6109,6109),(6155,6157),(6159,6159),(6277,6278),(6313,6313),
   (6432,6434),(6439,6440),(6450,6450),(6457,6459),(6679,6680),(6683,6683),(6742,6742),(6744,6750),
   (6752,6752),(6754,6754),(6757,6764),(6771,6780),(6783,6783),(6832,6845),(6847,6862),(6912,6915),
   (6964,6964),(6966,6970),(6972,6972),(6978,6978),(7019,7027),(7040,7041),(7074,7077),(7080,7081),
   (7083,7085),(7142,7142),(7144,7145),(7149,7149),(7151,7153),(7212,7219),(7222,7223),(7376,7378),
   (7380,7392),(7394,7400),(7405,7405),(7412,7412),(7416,7417),(7616,7679),(8400,8412),(8417,8417),
   (8421,8432),(11503,11505),(11647,11647),(11744,11775),(12330,12333),(12441,12442),(42607,42607),
   (42612,42621),(42654,42655),(42736,42737),(43010,43010),(43014,43014),(43019,43019),
   (43045,43046),(43052,43052),(43204,43205),(43232,43249),(43263,43263),(43302,43309),
   (43335,43345),(43392,43394),(43443,43443),(43446,43449),(43452,43453),(43493,43493),
   (43561,43566),(43569,43570),(43573,43574),(43587,43587),(43596,43596),(43644,43644),
   (43696,43696),(43698,43700),(43703,43704),(43710,43711),(43713,43713),(43756,43757),
   (43766,43766),(44005,44005),(44008,44008),(44013,44013),(64286,64286),(65024,65039),
   (65056,65071),(66045,66045),(66272,66272),(66422,66426),(68097,68099),(68101,68102),
   (68108,68111),(68152,68154),(68159,68159),(68325,68326),(68900,68903),(68969,68973),
   (69291,69292),(69372,69375),(69446,69456),(69506,69509),(69633,69633),(69688,69702),
   (69744,69744),(69747,69748),(69759,69761),(69811,69814),(69817,69818),(69826,69826),
   (69888,69890),(69927,69931),(69933,69940),(70003,70003),(70016,70017),(70070,70078),
   (70089,70092),(70095,70095),(70191,70193),(70196,70196),(70198,70199),(70206,70206),
   (70209,70209),(70367,70367),(70371,70378),(70400,70401),(70459,70460),(70464,70464),
   (70502,70508),(70512,70516),(70587,70592),(70606,70606),(70608,70608),(70610,70610),
   (70625,70626),(70712,70719),(70722,70724),(70726,70726),(70750,70750),(70835,70840),
   (70842,70842),(70847,70848),(70850,70851),(71090,71093),(71100,71101),(71103,71104),
   (71132,71133),(71219,71226),(71229,71229),(71231,71232),(71339,71339),(71341,71341),
   (71344,71349),(71351,71351),(71453,71453),(71455,71455),(71458,71461),(71463,71467),
   (71727,71735),(71737,71738),(71995,71996),(71998,71998),(72003,72003),(72148,72151),
   (72154,72155),(72160,72160),(72193,72202),(72243,72248),(72251,72254),(72263,72263),
   (72273,72278),(72281,72283),(72330,72342),(72344,72345),(72752,72758),(72760,72765),
   (72767,72767),(72850,72871),(72874,72880),(72882,72883),(72885,72886),(73009,73014),
   (73018,73018),(73020,73021),(73023,73029),(73031,73031),(73104,73105),(73109,73109),
   (73111,73111),(73459,73460),(73472,73473),(73526,73530),(73536,73536),(73538,73538),
   (73562,73562),(78912,78912),(78919,78933),(90398,90409),(90413,90415),(92912,92916),
   (92976,92982),(94031,94031),(94095,94098),(94180,94180),(113821,113822),(118528,118573),
   (118576,118598),(119143,119145),(119163,119170),(119173,119179),(119210,119213),(119362,119364),
   (121344,121398),(121403,121452),(121461,121461),(121476,121476),(121499,121503),(121505,121519),
   (122880,122886),(122888,122904),(122907,122913),(122915,122916),(122918,122922),(123023,123023),
   (123184,123190),(123566,123566),(123628,123631),(124140,124143),(124398,124399),(125136,125142),
   (125252,125258),(917760,917999)]

def inRanges (character : Char) (ranges : List (Nat × Nat)) : Bool :=
  ranges.any fun r => r.1 ≤ character.toNat && character.toNat ≤ r.2

def isDroppedCategory (character : Char) : Bool :=
  character == Char.ofNat 0xfffd || inRanges character droppedCategoryRanges

def isPunctuation (character : Char) : Bool := inRanges character punctuationRanges

def isNonspacingMark (character : Char) : Bool := inRanges character nonspacingMarkRanges

def isCjk (character : Char) : Bool :=
  inRanges character [(0x4e00,0x9fff),(0x3400,0x4dbf),(0x20000,0x2a6df),(0x2a700,0x2b73f),
    (0x2b740,0x2b81f),(0x2b820,0x2ceaf),(0xf900,0xfaff),(0x2f800,0x2fa1f)]

end ProjectOS.Gateway
