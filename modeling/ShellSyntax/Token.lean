/-!
# Tokens of the shell language

One token per spelling: `<<` is the same token as a here-document and as a shift.

* `Token.spelling` and `Token.ofSpelling?` are inverse to each other
  (`ofSpelling?_spelling`, `spelling_of_ofSpelling?`);
* `Token.heredocs`, `redirects`, `quotes`, `expansions`, `assignments`, `postfixes`: the families
  in which a token may stand for the construct of that name.
-/

namespace ShellSyntax

inductive Token where
  -- reserved words
  | ifWord | thenWord | elifWord | elseWord | fiWord | whileWord | untilWord | forWord | inWord
  | doWord | doneWord | caseWord | esacWord | functionWord | declareWord | localWord
  | bang | leftBrace | rightBrace
  -- control operators
  | semicolon | semicolons | ampersand | andAnd | bar | orOr | barAmpersand
  -- grouping and quoting
  | leftParen | rightParen | dollar | dollarSingle | dollarDouble
  | singleQuote | doubleQuote | backquote
  -- redirections
  | less | greater | greaterGreater | lessLess | lessLessDash | lessAmpersand | greaterAmpersand
  | lessGreater | greaterBar | lessLessLess | ampersandGreater | ampersandGreaterGreater
  | lessParen | greaterParen
  -- parameter expansion
  | hash | hashHash | percent | percentPercent | plus | colonPlus | minus | colonMinus
  | question | colonQuestion | equal | colonEqual | caret | caretCaret | comma | commaComma | colon
  -- arithmetic
  | star | starStar | slash | tilde | equalEqual | bangEqual | lessEqual | greaterEqual
  | plusPlus | minusMinus | plusEqual | minusEqual | starEqual | slashEqual | percentEqual
  | lessLessEqual | greaterGreaterEqual | ampersandEqual | barEqual | caretEqual
  deriving DecidableEq, Repr

namespace Token

def all : List Token :=
  [.ifWord, .thenWord, .elifWord, .elseWord, .fiWord, .whileWord, .untilWord, .forWord, .inWord,
   .doWord, .doneWord, .caseWord, .esacWord, .functionWord, .declareWord, .localWord,
   .bang, .leftBrace, .rightBrace,
   .semicolon, .semicolons, .ampersand, .andAnd, .bar, .orOr, .barAmpersand,
   .leftParen, .rightParen, .dollar, .dollarSingle, .dollarDouble,
   .singleQuote, .doubleQuote, .backquote,
   .less, .greater, .greaterGreater, .lessLess, .lessLessDash, .lessAmpersand, .greaterAmpersand,
   .lessGreater, .greaterBar, .lessLessLess, .ampersandGreater, .ampersandGreaterGreater,
   .lessParen, .greaterParen,
   .hash, .hashHash, .percent, .percentPercent, .plus, .colonPlus, .minus, .colonMinus,
   .question, .colonQuestion, .equal, .colonEqual, .caret, .caretCaret, .comma, .commaComma, .colon,
   .star, .starStar, .slash, .tilde, .equalEqual, .bangEqual, .lessEqual, .greaterEqual,
   .plusPlus, .minusMinus, .plusEqual, .minusEqual, .starEqual, .slashEqual, .percentEqual,
   .lessLessEqual, .greaterGreaterEqual, .ampersandEqual, .barEqual, .caretEqual]

def spelling : Token → String
  | .ifWord => "if" | .thenWord => "then" | .elifWord => "elif" | .elseWord => "else"
  | .fiWord => "fi" | .whileWord => "while" | .untilWord => "until" | .forWord => "for"
  | .inWord => "in" | .doWord => "do" | .doneWord => "done" | .caseWord => "case"
  | .esacWord => "esac" | .functionWord => "function" | .declareWord => "declare"
  | .localWord => "local" | .bang => "!" | .leftBrace => "\x7b" | .rightBrace => "\x7d"
  | .semicolon => ";" | .semicolons => ";;" | .ampersand => "&" | .andAnd => "&&"
  | .bar => "|" | .orOr => "||" | .barAmpersand => "|&"
  | .leftParen => "(" | .rightParen => ")" | .dollar => "$" | .dollarSingle => "$'"
  | .dollarDouble => "$\"" | .singleQuote => "'" | .doubleQuote => "\"" | .backquote => "`"
  | .less => "<" | .greater => ">" | .greaterGreater => ">>" | .lessLess => "<<"
  | .lessLessDash => "<<-" | .lessAmpersand => "<&" | .greaterAmpersand => ">&"
  | .lessGreater => "<>" | .greaterBar => ">|" | .lessLessLess => "<<<"
  | .ampersandGreater => "&>" | .ampersandGreaterGreater => "&>>"
  | .lessParen => "<(" | .greaterParen => ">("
  | .hash => "#" | .hashHash => "##" | .percent => "%" | .percentPercent => "%%"
  | .plus => "+" | .colonPlus => ":+" | .minus => "-" | .colonMinus => ":-"
  | .question => "?" | .colonQuestion => ":?" | .equal => "=" | .colonEqual => ":="
  | .caret => "^" | .caretCaret => "^^" | .comma => "," | .commaComma => ",," | .colon => ":"
  | .star => "*" | .starStar => "**" | .slash => "/" | .tilde => "~"
  | .equalEqual => "==" | .bangEqual => "!=" | .lessEqual => "<=" | .greaterEqual => ">="
  | .plusPlus => "++" | .minusMinus => "--" | .plusEqual => "+=" | .minusEqual => "-="
  | .starEqual => "*=" | .slashEqual => "/=" | .percentEqual => "%="
  | .lessLessEqual => "<<=" | .greaterGreaterEqual => ">>=" | .ampersandEqual => "&="
  | .barEqual => "|=" | .caretEqual => "^="

instance : ToString Token where
  toString := spelling

/-- The token with the given spelling. -/
def ofSpelling? (s : String) : Option Token := all.find? fun t => t.spelling == s

theorem mem_all (t : Token) : t ∈ all := by
  cases t <;> decide

theorem spelling_of_ofSpelling? {s : String} {t : Token} (h : ofSpelling? s = some t) :
    t.spelling = s := by
  simpa using List.find?_some h

theorem ofSpelling?_spelling (t : Token) : ofSpelling? t.spelling = some t := by
  cases t <;> decide

/-- No two tokens are spelled alike. -/
theorem spelling_inj {t u : Token} (h : t.spelling = u.spelling) : t = u := by
  have := ofSpelling?_spelling u
  rw [← h, ofSpelling?_spelling] at this
  exact Option.some.inj this

/-- The name under which a token is listed in diagnoses and token dumps. -/
def name : Token → String
  | .ifWord => "IF" | .thenWord => "THEN" | .elifWord => "ELIF" | .elseWord => "ELSE"
  | .fiWord => "FI" | .whileWord => "WHILE" | .untilWord => "UNTIL" | .forWord => "FOR"
  | .inWord => "IN" | .doWord => "DO" | .doneWord => "DONE" | .caseWord => "CASE"
  | .esacWord => "ESAC" | .functionWord => "FUNCTION" | .declareWord => "DECLARE"
  | .localWord => "LOCAL" | .bang => "NOT" | .leftBrace => "LBRACE" | .rightBrace => "RBRACE"
  | .semicolon => "SEMICOLON" | .semicolons => "DSEMICOLON" | .ampersand => "AND"
  | .andAnd => "LAND" | .bar => "OR" | .orOr => "LOR" | .barAmpersand => "PIPEALL"
  | .leftParen => "LPAREN" | .rightParen => "RPAREN" | .dollar => "DOLLAR"
  | .dollarSingle => "DOLLSQ" | .dollarDouble => "DOLLDQ" | .singleQuote => "SQUOTE"
  | .doubleQuote => "DQUOTE" | .backquote => "BQUOTE"
  | .less => "LSS" | .greater => "GTR" | .greaterGreater => "SHR" | .lessLess => "SHL"
  | .lessLessDash => "DHEREDOC" | .lessAmpersand => "DPLIN" | .greaterAmpersand => "DPLOUT"
  | .lessGreater => "RDRINOUT" | .greaterBar => "CLBOUT" | .lessLessLess => "WHEREDOC"
  | .ampersandGreater => "RDRALL" | .ampersandGreaterGreater => "APPALL"
  | .lessParen => "CMDIN" | .greaterParen => "CMDOUT"
  | .hash => "HASH" | .hashHash => "DHASH" | .percent => "REM" | .percentPercent => "DREM"
  | .plus => "ADD" | .colonPlus => "CADD" | .minus => "SUB" | .colonMinus => "CSUB"
  | .question => "QUEST" | .colonQuestion => "CQUEST" | .equal => "ASSIGN"
  | .colonEqual => "CASSIGN" | .caret => "XOR" | .caretCaret => "DXOR" | .comma => "COMMA"
  | .commaComma => "DCOMMA" | .colon => "COLON"
  | .star => "MUL" | .starStar => "POW" | .slash => "QUO" | .tilde => "TILDE"
  | .equalEqual => "EQL" | .bangEqual => "NEQ" | .lessEqual => "LEQ" | .greaterEqual => "GEQ"
  | .plusPlus => "INC" | .minusMinus => "DEC" | .plusEqual => "ADDASSGN"
  | .minusEqual => "SUBASSGN" | .starEqual => "MULASSGN" | .slashEqual => "QUOASSGN"
  | .percentEqual => "REMASSGN" | .lessLessEqual => "SHLASSGN"
  | .greaterGreaterEqual => "SHRASSGN" | .ampersandEqual => "ANDASSGN" | .barEqual => "ORASSGN"
  | .caretEqual => "XORASSGN"

/-- Redirections whose text follows on the next lines. -/
def heredocs : List Token := [.lessLess, .lessLessDash]

def redirects : List Token :=
  [.less, .greater, .greaterGreater, .lessLess, .lessLessDash, .lessAmpersand, .greaterAmpersand,
   .lessGreater, .greaterBar, .lessLessLess, .ampersandGreater, .ampersandGreaterGreater]

/-- Tokens that open a quoted string with parts inside. -/
def quotes : List Token := [.doubleQuote, .dollarSingle, .dollarDouble]

/-- Operators inside a braced parameter expansion. -/
def expansions : List Token :=
  [.hash, .hashHash, .percent, .percentPercent, .plus, .colonPlus, .minus, .colonMinus,
   .question, .colonQuestion, .equal, .colonEqual, .caret, .caretCaret, .comma, .commaComma, .colon]

def assignments : List Token :=
  [.equal, .plusEqual, .minusEqual, .starEqual, .slashEqual, .percentEqual,
   .lessLessEqual, .greaterGreaterEqual, .ampersandEqual, .barEqual, .caretEqual]

/-- Operators that may follow their operand. -/
def postfixes : List Token := [.plusPlus, .minusMinus]

/-- Signs that would run together with a neighbouring sign. -/
def signs : List Token := [.plus, .minus, .plusPlus, .minusMinus]

/-- The token that closes a string opened by the given one. -/
def closing : Token → Token
  | .dollarSingle => .singleQuote
  | .dollarDouble => .doubleQuote
  | t => t

end Token

end ShellSyntax
