import Caret.Grammar.Python
/-!
# The tables of the Python grammar, written out

What `Grammar.python` comes to, so that facts about its tables can be computed without compiling the
description again. An arc is written as its label and its target.

Results:
* `python_eq`: these are the tables.
-/
namespace Caret.Grammar

/-- A rule with the arcs of its states and what it can start with. -/
def numbered (index : Nat) (name : String) (states : List (List (Nat × Nat)))
    (first : List Nat) : RuleTable :=
  ⟨index, name, (states.map (·.map fun (label, target) => ⟨label, target⟩)).toArray, first⟩

/-- The labels of the tables. -/
def pythonLabels : List Label := [
  .empty, .token .endMarker, .token .newline, .rule 12, .token (.op .lPar), .token (.op .star),
  .token (.op .plus), .token (.op .minus), .token (.op .ellipsis), .token (.op .at),
  .keyword .kwFalse, .keyword .kwNone, .keyword .kwTrue, .token (.op .lSqb), .keyword .kwAssert,
  .keyword .kwBreak, .keyword .kwClass, .keyword .kwContinue, .keyword .kwDef, .keyword .kwDel,
  .keyword .kwFor, .keyword .kwFrom, .keyword .kwGlobal, .keyword .kwIf, .keyword .kwImport,
  .keyword .kwLambda, .keyword .kwNonlocal, .keyword .kwNot, .keyword .kwPass, .keyword .kwRaise,
  .keyword .kwReturn, .keyword .kwTry, .keyword .kwWhile, .keyword .kwWith, .keyword .kwYield,
  .token (.op .lBrace), .token (.op .tilde), .token .name, .token .number, .token .string, .rule 33,
  .token (.op .rPar), .rule 74, .rule 1, .rule 2, .rule 73, .rule 4, .rule 5, .token (.op .rArrow),
  .token (.op .colon), .rule 46, .rule 45, .rule 6, .rule 7, .token (.op .comma),
  .token (.op .doubleStar), .rule 8, .token (.op .equal), .rule 10, .rule 11, .rule 37, .rule 13,
  .rule 14, .token (.op .semi), .rule 36, .rule 18, .rule 15, .rule 20, .rule 34, .rule 26,
  .rule 35, .rule 19, .rule 16, .rule 17, .rule 79, .rule 71, .rule 55, .token (.op .percentEqual),
  .token (.op .amperEqual), .token (.op .doubleStarEqual), .token (.op .starEqual),
  .token (.op .plusEqual), .token (.op .minEqual), .token (.op .doubleSlashEqual),
  .token (.op .slashEqual), .token (.op .leftShiftEqual), .token (.op .rightShiftEqual),
  .token (.op .atEqual), .token (.op .circumflexEqual), .token (.op .vBarEqual), .rule 70, .rule 21,
  .rule 22, .rule 25, .rule 23, .rule 24, .rule 28, .rule 27, .rule 32, .token (.op .dot), .rule 31,
  .keyword .kwAs, .rule 29, .rule 30, .rule 3, .rule 40, .rule 38, .rule 41, .rule 39, .rule 42,
  .keyword .kwElif, .keyword .kwElse, .keyword .kwIn, .keyword .kwFinally, .rule 44, .rule 43,
  .rule 56, .keyword .kwExcept, .token .indent, .token .dedent, .rule 48, .rule 50, .rule 49,
  .rule 9, .rule 47, .rule 51, .keyword .kwOr, .rule 52, .keyword .kwAnd, .rule 53, .rule 54,
  .token (.op .notEqual), .token (.op .less), .token (.op .lessEqual), .token (.op .eqEqual),
  .token (.op .greater), .token (.op .greaterEqual), .keyword .kwIs, .rule 57, .token (.op .vBar),
  .rule 58, .token (.op .circumflex), .rule 59, .token (.op .amper), .rule 60,
  .token (.op .leftShift), .token (.op .rightShift), .rule 61, .rule 62, .token (.op .percent),
  .token (.op .slash), .token (.op .doubleSlash), .rule 63, .rule 64, .rule 66, .rule 65,
  .token (.op .rSqb), .token (.op .rBrace), .rule 72, .rule 77, .rule 67, .rule 68, .rule 69,
  .rule 75, .rule 78, .rule 76, .rule 80]

/-- The rules of the tables. -/
def pythonRules : List RuleTable := [
  numbered 0 "file_input" [
    [(1, 1), (2, 0), (3, 0)], [(0, 1)]]
    [1, 2, 4, 5, 6, 7, 8, 9, 10, 11, 12, 13, 14, 15, 16, 17, 18, 19, 20, 21, 22, 23, 24, 25, 26, 27,
    28, 29, 30, 31, 32, 33, 34, 35, 36, 37, 38, 39],
  numbered 1 "decorator" [
    [(9, 1)], [(40, 2)], [(4, 3), (2, 4)], [(41, 5), (42, 6)], [(0, 4)], [(2, 4)], [(41, 5)]]
    [9],
  numbered 2 "decorators" [[(43, 1)], [(43, 1), (0, 1)]] [9],
  numbered 3 "decorated" [[(44, 1)], [(45, 2), (46, 2)], [(0, 2)]] [9],
  numbered 4 "funcdef" [
    [(18, 1)], [(37, 2)], [(47, 3)], [(48, 4), (49, 5)], [(50, 6)], [(51, 7)], [(49, 5)], [(0, 7)]]
    [18],
  numbered 5 "parameters" [[(4, 1)], [(41, 2), (52, 3)], [(0, 2)], [(41, 2)]] [4],
  numbered 6 "typedargslist" [[(53, 1)], [(54, 2), (0, 1)], [(53, 1), (0, 2)]] [5, 37, 55],
  numbered 7 "tfpdef_item" [
    [(5, 1), (55, 2), (56, 3)], [(56, 4), (0, 1)], [(56, 4)], [(57, 5), (0, 3)], [(0, 4)],
    [(50, 4)]]
    [5, 37, 55],
  numbered 8 "tfpdef" [[(37, 1)], [(49, 2), (0, 1)], [(50, 3)], [(0, 3)]] [37],
  numbered 9 "varargslist" [[(58, 1)], [(54, 2), (0, 1)], [(58, 1), (0, 2)]] [5, 37, 55],
  numbered 10 "vfpdef_item" [
    [(5, 1), (55, 2), (59, 3)], [(59, 4), (0, 1)], [(59, 4)], [(57, 5), (0, 3)], [(0, 4)],
    [(50, 4)]]
    [5, 37, 55],
  numbered 11 "vfpdef" [[(37, 1)], [(0, 1)]] [37],
  numbered 12 "stmt" [
    [(60, 1), (61, 1)], [(0, 1)]]
    [4, 5, 6, 7, 8, 9, 10, 11, 12, 13, 14, 15, 16, 17, 18, 19, 20, 21, 22, 23, 24, 25, 26, 27, 28,
    29, 30, 31, 32, 33, 34, 35, 36, 37, 38, 39],
  numbered 13 "simple_stmt" [
    [(62, 1)], [(63, 2), (2, 3)], [(2, 3), (62, 1)], [(0, 3)]]
    [4, 5, 6, 7, 8, 10, 11, 12, 13, 14, 15, 17, 19, 21, 22, 24, 25, 26, 27, 28, 29, 30, 34, 35, 36,
    37, 38, 39],
  numbered 14 "small_stmt" [
    [(64, 1), (65, 1), (66, 1), (67, 1), (68, 1), (69, 1), (70, 1), (71, 1)], [(0, 1)]]
    [4, 5, 6, 7, 8, 10, 11, 12, 13, 14, 15, 17, 19, 21, 22, 24, 25, 26, 27, 28, 29, 30, 34, 35, 36,
    37, 38, 39],
  numbered 15 "expr_stmt" [
    [(72, 1)], [(57, 2), (73, 3), (0, 1)], [(72, 4), (74, 4)], [(75, 5), (74, 5)],
    [(57, 2), (0, 4)], [(0, 5)]]
    [4, 5, 6, 7, 8, 10, 11, 12, 13, 25, 27, 35, 36, 37, 38, 39],
  numbered 16 "testlist_star_expr" [
    [(76, 1), (50, 1)], [(54, 2), (0, 1)], [(76, 1), (50, 1), (0, 2)]]
    [4, 5, 6, 7, 8, 10, 11, 12, 13, 25, 27, 35, 36, 37, 38, 39],
  numbered 17 "augassign" [
    [(77, 1), (78, 1), (79, 1), (80, 1), (81, 1), (82, 1), (83, 1), (84, 1), (85, 1), (86, 1),
      (87, 1), (88, 1), (89, 1)],
    [(0, 1)]]
    [77, 78, 79, 80, 81, 82, 83, 84, 85, 86, 87, 88, 89],
  numbered 18 "del_stmt" [[(19, 1)], [(90, 2)], [(0, 2)]] [19],
  numbered 19 "pass_stmt" [[(28, 1)], [(0, 1)]] [28],
  numbered 20 "flow_stmt" [
    [(91, 1), (92, 1), (93, 1), (94, 1), (95, 1)], [(0, 1)]]
    [15, 17, 29, 30, 34],
  numbered 21 "break_stmt" [[(15, 1)], [(0, 1)]] [15],
  numbered 22 "continue_stmt" [[(17, 1)], [(0, 1)]] [17],
  numbered 23 "return_stmt" [[(30, 1)], [(75, 2), (0, 1)], [(0, 2)]] [30],
  numbered 24 "yield_stmt" [[(74, 1)], [(0, 1)]] [34],
  numbered 25 "raise_stmt" [
    [(29, 1)], [(50, 2), (0, 1)], [(21, 3), (0, 2)], [(50, 4)], [(0, 4)]]
    [29],
  numbered 26 "import_stmt" [[(96, 1), (97, 1)], [(0, 1)]] [21, 24],
  numbered 27 "import_name" [[(24, 1)], [(98, 2)], [(0, 2)]] [24],
  numbered 28 "import_from" [
    [(21, 1)], [(99, 2), (8, 2), (40, 3)], [(99, 2), (8, 2), (24, 4), (40, 3)], [(24, 4)],
    [(4, 5), (5, 6), (100, 6)], [(100, 7)], [(0, 6)], [(41, 6)]]
    [21],
  numbered 29 "import_as_name" [[(37, 1)], [(101, 2), (0, 1)], [(37, 3)], [(0, 3)]] [37],
  numbered 30 "dotted_as_name" [[(40, 1)], [(101, 2), (0, 1)], [(37, 3)], [(0, 3)]] [37],
  numbered 31 "import_as_names" [[(102, 1)], [(54, 2), (0, 1)], [(102, 1), (0, 2)]] [37],
  numbered 32 "dotted_as_names" [[(103, 1)], [(54, 0), (0, 1)]] [37],
  numbered 33 "dotted_name" [[(37, 1)], [(99, 0), (0, 1)]] [37],
  numbered 34 "global_stmt" [[(22, 1)], [(37, 2)], [(54, 1), (0, 2)]] [22],
  numbered 35 "nonlocal_stmt" [[(26, 1)], [(37, 2)], [(54, 1), (0, 2)]] [26],
  numbered 36 "assert_stmt" [[(14, 1)], [(50, 2)], [(54, 3), (0, 2)], [(50, 4)], [(0, 4)]] [14],
  numbered 37 "compound_stmt" [
    [(45, 1), (104, 1), (105, 1), (46, 1), (106, 1), (107, 1), (108, 1), (109, 1)], [(0, 1)]]
    [9, 16, 18, 20, 23, 31, 32, 33],
  numbered 38 "if_stmt" [
    [(23, 1)], [(50, 2)], [(49, 3)], [(51, 4)], [(110, 1), (111, 5), (0, 4)], [(49, 6)], [(51, 7)],
    [(0, 7)]]
    [23],
  numbered 39 "while_stmt" [
    [(32, 1)], [(50, 2)], [(49, 3)], [(51, 4)], [(111, 5), (0, 4)], [(49, 6)], [(51, 7)], [(0, 7)]]
    [32],
  numbered 40 "for_stmt" [
    [(20, 1)], [(90, 2)], [(112, 3)], [(75, 4)], [(49, 5)], [(51, 6)], [(111, 7), (0, 6)],
    [(49, 8)], [(51, 9)], [(0, 9)]]
    [20],
  numbered 41 "try_stmt" [
    [(31, 1)], [(49, 2)], [(51, 3)], [(113, 4), (114, 5)], [(49, 6)], [(49, 7)], [(51, 8)],
    [(51, 9)], [(0, 8)], [(111, 10), (113, 4), (114, 5), (0, 9)], [(49, 11)], [(51, 12)],
    [(113, 4), (0, 12)]]
    [31],
  numbered 42 "with_stmt" [[(33, 1)], [(115, 2)], [(54, 1), (49, 3)], [(51, 4)], [(0, 4)]] [33],
  numbered 43 "with_item" [
    [(50, 1)], [(101, 2), (0, 1)], [(116, 3)], [(0, 3)]]
    [4, 6, 7, 8, 10, 11, 12, 13, 25, 27, 35, 36, 37, 38, 39],
  numbered 44 "except_clause" [
    [(117, 1)], [(50, 2), (0, 1)], [(101, 3), (0, 2)], [(37, 4)], [(0, 4)]]
    [117],
  numbered 45 "suite" [
    [(2, 1), (61, 2)], [(118, 3)], [(0, 2)], [(3, 4)], [(119, 2), (3, 4)]]
    [2, 4, 5, 6, 7, 8, 10, 11, 12, 13, 14, 15, 17, 19, 21, 22, 24, 25, 26, 27, 28, 29, 30, 34, 35,
    36, 37, 38, 39],
  numbered 46 "test" [
    [(120, 1), (121, 2)], [(0, 1)], [(23, 3), (0, 2)], [(121, 4)], [(111, 5)], [(50, 1)]]
    [4, 6, 7, 8, 10, 11, 12, 13, 25, 27, 35, 36, 37, 38, 39],
  numbered 47 "test_nocond" [
    [(122, 1), (121, 1)], [(0, 1)]]
    [4, 6, 7, 8, 10, 11, 12, 13, 25, 27, 35, 36, 37, 38, 39],
  numbered 48 "lambdef" [[(25, 1)], [(49, 2), (123, 3)], [(50, 4)], [(49, 2)], [(0, 4)]] [25],
  numbered 49 "lambdef_nocond" [
    [(25, 1)], [(49, 2), (123, 3)], [(124, 4)], [(49, 2)], [(0, 4)]]
    [25],
  numbered 50 "or_test" [
    [(125, 1)], [(126, 0), (0, 1)]]
    [4, 6, 7, 8, 10, 11, 12, 13, 27, 35, 36, 37, 38, 39],
  numbered 51 "and_test" [
    [(127, 1)], [(128, 0), (0, 1)]]
    [4, 6, 7, 8, 10, 11, 12, 13, 27, 35, 36, 37, 38, 39],
  numbered 52 "not_test" [
    [(27, 1), (129, 2)], [(127, 2)], [(0, 2)]]
    [4, 6, 7, 8, 10, 11, 12, 13, 27, 35, 36, 37, 38, 39],
  numbered 53 "comparison" [
    [(116, 1)], [(130, 0), (0, 1)]]
    [4, 6, 7, 8, 10, 11, 12, 13, 35, 36, 37, 38, 39],
  numbered 54 "comp_op" [
    [(131, 1), (132, 1), (133, 1), (134, 1), (135, 1), (136, 1), (112, 1), (137, 2), (27, 3)],
    [(0, 1)], [(27, 1), (0, 2)], [(112, 1)]]
    [27, 112, 131, 132, 133, 134, 135, 136, 137],
  numbered 55 "star_expr" [[(5, 1)], [(116, 2)], [(0, 2)]] [5],
  numbered 56 "expr" [
    [(138, 1)], [(139, 0), (0, 1)]]
    [4, 6, 7, 8, 10, 11, 12, 13, 35, 36, 37, 38, 39],
  numbered 57 "xor_expr" [
    [(140, 1)], [(141, 0), (0, 1)]]
    [4, 6, 7, 8, 10, 11, 12, 13, 35, 36, 37, 38, 39],
  numbered 58 "and_expr" [
    [(142, 1)], [(143, 0), (0, 1)]]
    [4, 6, 7, 8, 10, 11, 12, 13, 35, 36, 37, 38, 39],
  numbered 59 "shift_expr" [
    [(144, 1)], [(145, 0), (146, 0), (0, 1)]]
    [4, 6, 7, 8, 10, 11, 12, 13, 35, 36, 37, 38, 39],
  numbered 60 "arith_expr" [
    [(147, 1)], [(6, 0), (7, 0), (0, 1)]]
    [4, 6, 7, 8, 10, 11, 12, 13, 35, 36, 37, 38, 39],
  numbered 61 "term" [
    [(148, 1)], [(149, 0), (5, 0), (150, 0), (151, 0), (9, 0), (0, 1)]]
    [4, 6, 7, 8, 10, 11, 12, 13, 35, 36, 37, 38, 39],
  numbered 62 "factor" [
    [(6, 1), (7, 1), (36, 1), (152, 2)], [(148, 2)], [(0, 2)]]
    [4, 6, 7, 8, 10, 11, 12, 13, 35, 36, 37, 38, 39],
  numbered 63 "power" [
    [(153, 1)], [(55, 2), (154, 1), (0, 1)], [(148, 3)], [(0, 3)]]
    [4, 8, 10, 11, 12, 13, 35, 37, 38, 39],
  numbered 64 "atom" [
    [(4, 1), (8, 2), (10, 2), (11, 2), (12, 2), (13, 3), (35, 4), (37, 2), (38, 2), (39, 5)],
    [(41, 2), (155, 6), (74, 6)], [(0, 2)], [(156, 2), (155, 7)], [(157, 2), (158, 8)],
    [(39, 5), (0, 5)], [(41, 2)], [(156, 2)], [(157, 2)]]
    [4, 8, 10, 11, 12, 13, 35, 37, 38, 39],
  numbered 65 "testlist_comp" [
    [(76, 1), (50, 1)], [(54, 2), (159, 3), (0, 1)], [(76, 4), (50, 4), (0, 2)], [(0, 3)],
    [(54, 2), (0, 4)]]
    [4, 5, 6, 7, 8, 10, 11, 12, 13, 25, 27, 35, 36, 37, 38, 39],
  numbered 66 "trailer" [
    [(4, 1), (99, 2), (13, 3)], [(41, 4), (42, 5)], [(37, 4)], [(160, 6)], [(0, 4)], [(41, 4)],
    [(156, 4)]]
    [4, 13, 99],
  numbered 67 "subscriptlist" [
    [(161, 1)], [(54, 2), (0, 1)], [(161, 1), (0, 2)]]
    [4, 6, 7, 8, 10, 11, 12, 13, 25, 27, 35, 36, 37, 38, 39, 49],
  numbered 68 "subscript" [
    [(49, 1), (50, 2)], [(162, 3), (50, 4), (0, 1)], [(49, 1), (0, 2)], [(0, 3)],
    [(162, 3), (0, 4)]]
    [4, 6, 7, 8, 10, 11, 12, 13, 25, 27, 35, 36, 37, 38, 39, 49],
  numbered 69 "sliceop" [[(49, 1)], [(50, 2), (0, 1)], [(0, 2)]] [49],
  numbered 70 "exprlist" [
    [(116, 1), (76, 1)], [(54, 2), (0, 1)], [(116, 1), (76, 1), (0, 2)]]
    [4, 5, 6, 7, 8, 10, 11, 12, 13, 35, 36, 37, 38, 39],
  numbered 71 "testlist" [
    [(50, 1)], [(54, 2), (0, 1)], [(50, 1), (0, 2)]]
    [4, 6, 7, 8, 10, 11, 12, 13, 25, 27, 35, 36, 37, 38, 39],
  numbered 72 "dictorsetmaker" [
    [(50, 1)], [(54, 2), (49, 3), (159, 4), (0, 1)], [(50, 5), (0, 2)], [(50, 6)], [(0, 4)],
    [(54, 2), (0, 5)], [(54, 7), (159, 4), (0, 6)], [(50, 8), (0, 7)], [(49, 9)], [(50, 10)],
    [(54, 7), (0, 10)]]
    [4, 6, 7, 8, 10, 11, 12, 13, 25, 27, 35, 36, 37, 38, 39],
  numbered 73 "classdef" [
    [(16, 1)], [(37, 2)], [(4, 3), (49, 4)], [(41, 5), (42, 6)], [(51, 7)], [(49, 4)], [(41, 5)],
    [(0, 7)]]
    [16],
  numbered 74 "arglist" [
    [(163, 1)], [(54, 2), (0, 1)], [(163, 1), (0, 2)]]
    [4, 5, 6, 7, 8, 10, 11, 12, 13, 25, 27, 35, 36, 37, 38, 39, 55],
  numbered 75 "argument" [
    [(5, 1), (55, 1), (50, 2)], [(50, 3)], [(57, 1), (159, 3), (0, 2)], [(0, 3)]]
    [4, 5, 6, 7, 8, 10, 11, 12, 13, 25, 27, 35, 36, 37, 38, 39, 55],
  numbered 76 "comp_iter" [[(159, 1), (164, 1)], [(0, 1)]] [20, 23],
  numbered 77 "comp_for" [
    [(20, 1)], [(90, 2)], [(112, 3)], [(121, 4)], [(165, 5), (0, 4)], [(0, 5)]]
    [20],
  numbered 78 "comp_if" [[(23, 1)], [(124, 2)], [(165, 3), (0, 2)], [(0, 3)]] [23],
  numbered 79 "yield_expr" [[(34, 1)], [(166, 2), (0, 1)], [(0, 2)]] [34],
  numbered 80 "yield_arg" [
    [(21, 1), (75, 2)], [(50, 2)], [(0, 2)]]
    [4, 6, 7, 8, 10, 11, 12, 13, 21, 25, 27, 35, 36, 37, 38, 39]]

/-- The tables of the Python grammar. -/
def pythonTables : Grammar := ⟨pythonLabels.toArray, pythonRules.toArray⟩

/-- A line is the characters that its literal spells. -/
theorem map_toList_cons {text : Text} {lines : List String} {texts : List Text}
    (h : lines.map String.toList = texts) :
    (String.ofList text :: lines).map String.toList = text :: texts := by
  rw [List.map_cons, String.toList_ofList, h]

set_option maxRecDepth 100000 in
/-- The tables above are those of the Python grammar. -/
theorem python_eq : python = .ok pythonTables := by
  rw [python]
  have spelled : ∃ texts, pythonLines.map String.toList = texts ∧
      (ofLines texts).toOption = some pythonTables := by
    apply Exists.intro
    apply And.intro
    · -- each literal is matched with its characters in turn, so that none has to be decoded
      unfold pythonLines
      repeat apply map_toList_cons
      exact List.map_nil
    · decide +kernel
  obtain ⟨texts, lines, tables⟩ := spelled
  rw [lines]
  cases compiled : ofLines texts with
  | error e => rw [compiled] at tables; cases tables
  | ok g => rw [compiled] at tables; exact congrArg Except.ok (Option.some.inj tables)

/-- So there are no others. -/
theorem python_tables {g : Grammar} (h : python = .ok g) : pythonTables = g := by
  rw [python_eq] at h
  exact Except.ok.inj h

end Caret.Grammar
