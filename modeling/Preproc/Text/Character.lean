/-! # Classes of characters

A class of characters is given as a list of ranges of code points, each with its length, in
ascending order (Unicode 14). Membership is a search through the list, so a class is exactly the
union of its ranges. Where a class is tested directly on ASCII, its table begins behind that.
-/

namespace Preproc.Text

abbrev CodeRange := Nat × Nat

def inRanges (ranges : List CodeRange) (code : Nat) : Bool :=
  ranges.any fun range => range.1 ≤ code && code < range.1 + range.2

theorem inRanges_iff {ranges : List CodeRange} {code : Nat} :
    inRanges ranges code = true ↔ ∃ range ∈ ranges, range.1 ≤ code ∧ code < range.1 + range.2 := by
  simp [inRanges]

/-! ## White space

The characters that trimming removes: white space together with the four information separators.
-/

def spaceRanges : List CodeRange :=
  [(9, 5), (28, 5), (133, 1), (160, 1), (5760, 1), (8192, 11), (8232, 2), (8239, 1), (8287, 1),
    (12288, 1)]

def isSpace (c : Char) : Bool :=
  inRanges spaceRanges c.toNat

/-- The text without the white space at both ends. -/
def trim (text : List Char) : List Char :=
  ((text.dropWhile isSpace).reverse.dropWhile isSpace).reverse

/-! ## Letters

A letter is a character of general category L: upper, lower and title case letters, modifier letters
and all others, ideographs included.
-/

def letterRanges : List CodeRange :=
  [(170, 1), (181, 1), (186, 1), (192, 23), (216, 31), (248, 458), (710, 12), (736, 5), (748, 1),
    (750, 1), (880, 5), (886, 2), (890, 4), (895, 1), (902, 1), (904, 3), (908, 1), (910, 20),
    (931, 83), (1015, 139), (1162, 166), (1329, 38), (1369, 1), (1376, 41), (1488, 27), (1519, 4),
    (1568, 43), (1646, 2), (1649, 99), (1749, 1), (1765, 2), (1774, 2), (1786, 3), (1791, 1),
    (1808, 1), (1810, 30), (1869, 89), (1969, 1), (1994, 33), (2036, 2), (2042, 1), (2048, 22),
    (2074, 1), (2084, 1), (2088, 1), (2112, 25), (2144, 11), (2160, 24), (2185, 6), (2208, 42),
    (2308, 54), (2365, 1), (2384, 1), (2392, 10), (2417, 16), (2437, 8), (2447, 2), (2451, 22),
    (2474, 7), (2482, 1), (2486, 4), (2493, 1), (2510, 1), (2524, 2), (2527, 3), (2544, 2),
    (2556, 1), (2565, 6), (2575, 2), (2579, 22), (2602, 7), (2610, 2), (2613, 2), (2616, 2),
    (2649, 4), (2654, 1), (2674, 3), (2693, 9), (2703, 3), (2707, 22), (2730, 7), (2738, 2),
    (2741, 5), (2749, 1), (2768, 1), (2784, 2), (2809, 1), (2821, 8), (2831, 2), (2835, 22),
    (2858, 7), (2866, 2), (2869, 5), (2877, 1), (2908, 2), (2911, 3), (2929, 1), (2947, 1),
    (2949, 6), (2958, 3), (2962, 4), (2969, 2), (2972, 1), (2974, 2), (2979, 2), (2984, 3),
    (2990, 12), (3024, 1), (3077, 8), (3086, 3), (3090, 23), (3114, 16), (3133, 1), (3160, 3),
    (3165, 1), (3168, 2), (3200, 1), (3205, 8), (3214, 3), (3218, 23), (3242, 10), (3253, 5),
    (3261, 1), (3293, 2), (3296, 2), (3313, 2), (3332, 9), (3342, 3), (3346, 41), (3389, 1),
    (3406, 1), (3412, 3), (3423, 3), (3450, 6), (3461, 18), (3482, 24), (3507, 9), (3517, 1),
    (3520, 7), (3585, 48), (3634, 2), (3648, 7), (3713, 2), (3716, 1), (3718, 5), (3724, 24),
    (3749, 1), (3751, 10), (3762, 2), (3773, 1), (3776, 5), (3782, 1), (3804, 4), (3840, 1),
    (3904, 8), (3913, 36), (3976, 5), (4096, 43), (4159, 1), (4176, 6), (4186, 4), (4193, 1),
    (4197, 2), (4206, 3), (4213, 13), (4238, 1), (4256, 38), (4295, 1), (4301, 1), (4304, 43),
    (4348, 333), (4682, 4), (4688, 7), (4696, 1), (4698, 4), (4704, 41), (4746, 4), (4752, 33),
    (4786, 4), (4792, 7), (4800, 1), (4802, 4), (4808, 15), (4824, 57), (4882, 4), (4888, 67),
    (4992, 16), (5024, 86), (5112, 6), (5121, 620), (5743, 17), (5761, 26), (5792, 75), (5873, 8),
    (5888, 18), (5919, 19), (5952, 18), (5984, 13), (5998, 3), (6016, 52), (6103, 1), (6108, 1),
    (6176, 89), (6272, 5), (6279, 34), (6314, 1), (6320, 70), (6400, 31), (6480, 30), (6512, 5),
    (6528, 44), (6576, 26), (6656, 23), (6688, 53), (6823, 1), (6917, 47), (6981, 8), (7043, 30),
    (7086, 2), (7098, 44), (7168, 36), (7245, 3), (7258, 36), (7296, 9), (7312, 43), (7357, 3),
    (7401, 4), (7406, 6), (7413, 2), (7418, 1), (7424, 192), (7680, 278), (7960, 6), (7968, 38),
    (8008, 6), (8016, 8), (8025, 1), (8027, 1), (8029, 1), (8031, 31), (8064, 53), (8118, 7),
    (8126, 1), (8130, 3), (8134, 7), (8144, 4), (8150, 6), (8160, 13), (8178, 3), (8182, 7),
    (8305, 1), (8319, 1), (8336, 13), (8450, 1), (8455, 1), (8458, 10), (8469, 1), (8473, 5),
    (8484, 1), (8486, 1), (8488, 1), (8490, 4), (8495, 11), (8508, 4), (8517, 5), (8526, 1),
    (8579, 2), (11264, 229), (11499, 4), (11506, 2), (11520, 38), (11559, 1), (11565, 1),
    (11568, 56), (11631, 1), (11648, 23), (11680, 7), (11688, 7), (11696, 7), (11704, 7),
    (11712, 7), (11720, 7), (11728, 7), (11736, 7), (11823, 1), (12293, 2), (12337, 5), (12347, 2),
    (12353, 86), (12445, 3), (12449, 90), (12540, 4), (12549, 43), (12593, 94), (12704, 32),
    (12784, 16), (13312, 6592), (19968, 22157), (42192, 46), (42240, 269), (42512, 16), (42538, 2),
    (42560, 47), (42623, 31), (42656, 70), (42775, 9), (42786, 103), (42891, 64), (42960, 2),
    (42963, 1), (42965, 5), (42994, 16), (43011, 3), (43015, 4), (43020, 23), (43072, 52),
    (43138, 50), (43250, 6), (43259, 1), (43261, 2), (43274, 28), (43312, 23), (43360, 29),
    (43396, 47), (43471, 1), (43488, 5), (43494, 10), (43514, 5), (43520, 41), (43584, 3),
    (43588, 8), (43616, 23), (43642, 1), (43646, 50), (43697, 1), (43701, 2), (43705, 5),
    (43712, 1), (43714, 1), (43739, 3), (43744, 11), (43762, 3), (43777, 6), (43785, 6), (43793, 6),
    (43808, 7), (43816, 7), (43824, 43), (43868, 14), (43888, 115), (44032, 11172), (55216, 23),
    (55243, 49), (63744, 366), (64112, 106), (64256, 7), (64275, 5), (64285, 1), (64287, 10),
    (64298, 13), (64312, 5), (64318, 1), (64320, 2), (64323, 2), (64326, 108), (64467, 363),
    (64848, 64), (64914, 54), (65008, 12), (65136, 5), (65142, 135), (65313, 26), (65345, 26),
    (65382, 89), (65474, 6), (65482, 6), (65490, 6), (65498, 3), (65536, 12), (65549, 26),
    (65576, 19), (65596, 2), (65599, 15), (65616, 14), (65664, 123), (66176, 29), (66208, 49),
    (66304, 32), (66349, 20), (66370, 8), (66384, 38), (66432, 30), (66464, 36), (66504, 8),
    (66560, 158), (66736, 36), (66776, 36), (66816, 40), (66864, 52), (66928, 11), (66940, 15),
    (66956, 7), (66964, 2), (66967, 11), (66979, 15), (66995, 7), (67003, 2), (67072, 311),
    (67392, 22), (67424, 8), (67456, 6), (67463, 42), (67506, 9), (67584, 6), (67592, 1),
    (67594, 44), (67639, 2), (67644, 1), (67647, 23), (67680, 23), (67712, 31), (67808, 19),
    (67828, 2), (67840, 22), (67872, 26), (67968, 56), (68030, 2), (68096, 1), (68112, 4),
    (68117, 3), (68121, 29), (68192, 29), (68224, 29), (68288, 8), (68297, 28), (68352, 54),
    (68416, 22), (68448, 19), (68480, 18), (68608, 73), (68736, 51), (68800, 51), (68864, 36),
    (69248, 42), (69296, 2), (69376, 29), (69415, 1), (69424, 22), (69488, 18), (69552, 21),
    (69600, 23), (69635, 53), (69745, 2), (69749, 1), (69763, 45), (69840, 25), (69891, 36),
    (69956, 1), (69959, 1), (69968, 35), (70006, 1), (70019, 48), (70081, 4), (70106, 1),
    (70108, 1), (70144, 18), (70163, 25), (70272, 7), (70280, 1), (70282, 4), (70287, 15),
    (70303, 10), (70320, 47), (70405, 8), (70415, 2), (70419, 22), (70442, 7), (70450, 2),
    (70453, 5), (70461, 1), (70480, 1), (70493, 5), (70656, 53), (70727, 4), (70751, 3),
    (70784, 48), (70852, 2), (70855, 1), (71040, 47), (71128, 4), (71168, 48), (71236, 1),
    (71296, 43), (71352, 1), (71424, 27), (71488, 7), (71680, 44), (71840, 64), (71935, 8),
    (71945, 1), (71948, 8), (71957, 2), (71960, 24), (71999, 1), (72001, 1), (72096, 8),
    (72106, 39), (72161, 1), (72163, 1), (72192, 1), (72203, 40), (72250, 1), (72272, 1),
    (72284, 46), (72349, 1), (72368, 73), (72704, 9), (72714, 37), (72768, 1), (72818, 30),
    (72960, 7), (72968, 2), (72971, 38), (73030, 1), (73056, 6), (73063, 2), (73066, 32),
    (73112, 1), (73440, 19), (73648, 1), (73728, 922), (74880, 196), (77712, 97), (77824, 1071),
    (82944, 583), (92160, 569), (92736, 31), (92784, 79), (92880, 30), (92928, 48), (92992, 4),
    (93027, 21), (93053, 19), (93760, 64), (93952, 75), (94032, 1), (94099, 13), (94176, 2),
    (94179, 1), (94208, 6136), (100352, 1238), (101632, 9), (110576, 4), (110581, 7), (110589, 2),
    (110592, 291), (110928, 3), (110948, 4), (110960, 396), (113664, 107), (113776, 13),
    (113792, 9), (113808, 10), (119808, 85), (119894, 71), (119966, 2), (119970, 1), (119973, 2),
    (119977, 4), (119982, 12), (119995, 1), (119997, 7), (120005, 65), (120071, 4), (120077, 8),
    (120086, 7), (120094, 28), (120123, 4), (120128, 5), (120134, 1), (120138, 7), (120146, 340),
    (120488, 25), (120514, 25), (120540, 31), (120572, 25), (120598, 31), (120630, 25),
    (120656, 31), (120688, 25), (120714, 31), (120746, 25), (120772, 8), (122624, 31), (123136, 45),
    (123191, 7), (123214, 1), (123536, 30), (123584, 44), (124896, 7), (124904, 4), (124909, 2),
    (124912, 15), (124928, 197), (125184, 68), (125259, 1), (126464, 4), (126469, 27), (126497, 2),
    (126500, 1), (126503, 1), (126505, 10), (126516, 4), (126521, 1), (126523, 1), (126530, 1),
    (126535, 1), (126537, 1), (126539, 1), (126541, 3), (126545, 2), (126548, 1), (126551, 1),
    (126553, 1), (126555, 1), (126557, 1), (126559, 1), (126561, 2), (126564, 1), (126567, 4),
    (126572, 7), (126580, 4), (126585, 4), (126590, 1), (126592, 10), (126603, 17), (126625, 3),
    (126629, 5), (126635, 17), (131072, 42720), (173824, 4153), (177984, 222), (178208, 5762),
    (183984, 7473), (194560, 542), (196608, 4939)]

def isLetter (c : Char) : Bool :=
  if c.toNat < 128 then c.isAlpha else inRanges letterRanges c.toNat

/-! ## Digits

A *digit* has numeric type decimal or digit, so superscripts and circled digits are digits. A
*decimal* is a digit of a positional system; those come in runs of ten, so the value of a decimal is
its distance from the zero that starts its run.
-/

/-- The zeros beyond ASCII; each is followed by the nine other decimals of its system. -/
def zeros : List Nat :=
  [1632, 1776, 1984, 2406, 2534, 2662, 2790, 2918, 3046, 3174, 3302, 3430, 3558, 3664, 3792, 3872,
    4160, 4240, 6112, 6160, 6470, 6608, 6784, 6800, 6992, 7088, 7232, 7248, 42528, 43216, 43264,
    43472, 43504, 43600, 44016, 65296, 66720, 68912, 69734, 69872, 69942, 70096, 70384, 70736,
    70864, 71248, 71360, 71472, 71904, 72016, 72784, 73040, 73120, 92768, 92864, 93008, 120782,
    120792, 120802, 120812, 120822, 123200, 123632, 125264, 130032]

def decimalValue? (c : Char) : Option Nat :=
  if c.toNat < 128 then
    if c.isDigit then some (c.toNat - 48) else none
  else
    (zeros.find? fun base => base ≤ c.toNat && c.toNat < base + 10).map (c.toNat - ·)

/-- The digits beyond ASCII that are not decimals. -/
def digitRanges : List CodeRange :=
  [(178, 2), (185, 1), (4969, 9), (6618, 1), (8304, 1), (8308, 6), (8320, 10), (9312, 9), (9332, 9),
    (9352, 9), (9450, 1), (9461, 9), (9471, 1), (10102, 9), (10112, 9), (10122, 9), (68160, 4),
    (69216, 9), (69714, 9), (127232, 11)]

def isDigit (c : Char) : Bool :=
  if c.toNat < 128 then c.isDigit
  else (decimalValue? c).isSome || inRanges digitRanges c.toNat

/-! ## Words

A word character is a letter, a character with any numeric value or an underscore. Fractions and
Roman numerals are numeric and neither letters nor digits.
-/

/-- Ranges of numeric characters that are neither letters nor digits. -/
def numeralRanges : List CodeRange :=
  [(188, 3), (2548, 6), (2930, 6), (3056, 3), (3192, 7), (3416, 7), (3440, 9), (3882, 10),
    (4978, 11), (5870, 3), (6128, 10), (8528, 51), (8581, 5), (9321, 11), (9341, 11), (9361, 11),
    (9451, 10), (9470, 1), (10111, 1), (10121, 1), (10131, 1), (11517, 1), (12295, 1), (12321, 9),
    (12344, 3), (12690, 4), (12832, 10), (12872, 8), (12881, 15), (12928, 10), (12977, 15),
    (42726, 10), (43056, 6), (65799, 45), (65856, 57), (65930, 2), (66273, 27), (66336, 4),
    (66369, 1), (66378, 1), (66513, 5), (67672, 8), (67705, 7), (67751, 9), (67835, 5), (67862, 6),
    (68028, 2), (68032, 16), (68050, 46), (68164, 5), (68221, 2), (68253, 3), (68331, 5),
    (68440, 8), (68472, 8), (68521, 7), (68858, 6), (69225, 22), (69405, 10), (69457, 4),
    (69573, 7), (69723, 11), (70113, 20), (71482, 2), (71914, 9), (72794, 19), (73664, 21),
    (74752, 111), (93019, 7), (93824, 23), (119520, 20), (119648, 25), (125127, 9), (126065, 59),
    (126125, 3), (126129, 4), (126209, 45), (126255, 15), (127243, 2)]

/-- Whether a character may stand in a word after its first character. -/
def isWordChar (c : Char) : Bool :=
  c == '_' || isLetter c || isDigit c || inRanges numeralRanges c.toNat

end Preproc.Text
