import OpenQasm.Syntax.Parse.Program

/-!
# The bundled gate library

The gates of the standard library of OpenQASM 2, which programs include under the name
`qelib1.inc`. They are given by their definitions in the language itself.
-/

namespace OpenQasm.StandardGates

/-- The name under which the library is included. -/
def fileName : String := "qelib1.inc"

/-- A gate definition on one line. -/
def gate (signature body : String) : String := "gate " ++ signature ++ " \x7b " ++ body ++ " \x7d"

/-- A gate definition over several lines. -/
def longGate (signature : String) (body : List String) : List String :=
  ["gate " ++ signature ++ " \x7b"] ++ body.map ("  " ++ ·) ++ ["\x7d"]

/-- The lines of the library. -/
def lines : List String :=
  ["// standard gate library for OpenQASM 2",
    gate "u3(theta,phi,lambda) q" "U(theta,phi,lambda) q;",
    gate "u2(phi,lambda) q" "U(pi/2,phi,lambda) q;",
    gate "u1(lambda) q" "U(0,0,lambda) q;",
    gate "cx c,t" "CX c,t;",
    gate "id a" "U(0,0,0) a;",
    gate "u0(gamma) q" "U(0,0,0) q;",
    gate "x a" "u3(pi,0,pi) a;",
    gate "y a" "u3(pi,pi/2,pi/2) a;",
    gate "z a" "u1(pi) a;",
    gate "h a" "u2(0,pi) a;",
    gate "s a" "u1(pi/2) a;",
    gate "sdg a" "u1(-pi/2) a;",
    gate "t a" "u1(pi/4) a;",
    gate "tdg a" "u1(-pi/4) a;",
    gate "rx(theta) a" "u3(theta,-pi/2,pi/2) a;",
    gate "ry(theta) a" "u3(theta,0,0) a;",
    gate "rz(phi) a" "u1(phi) a;",
    gate "cz a,b" "h b; cx a,b; h b;",
    gate "cy a,b" "sdg b; cx a,b; s b;",
    gate "swap a,b" "cx a,b; cx b,a; cx a,b;"]
  ++ longGate "ch a,b"
    ["h b; sdg b;",
      "cx a,b;",
      "h b; t b;",
      "cx a,b;",
      "t b; h b; s b; x b; s a;"]
  ++ longGate "ccx a,b,c"
    ["h c;",
      "cx b,c; tdg c;",
      "cx a,c; t c;",
      "cx b,c; tdg c;",
      "cx a,c; t b; t c; h c;",
      "cx a,b; t a; tdg b;",
      "cx a,b;"]
  ++ longGate "crz(lambda) a,b"
    ["u1(lambda/2) b;",
      "cx a,b;",
      "u1(-lambda/2) b;",
      "cx a,b;"]
  ++ longGate "cu1(lambda) a,b"
    ["u1(lambda/2) a;",
      "cx a,b;",
      "u1(-lambda/2) b;",
      "cx a,b;",
      "u1(lambda/2) b;"]
  ++ longGate "cu3(theta,phi,lambda) c,t"
    ["u1((lambda-phi)/2) t;",
      "cx c,t;",
      "u3(-theta/2,0,-(phi+lambda)/2) t;",
      "cx c,t;",
      "u3(theta/2,phi,0) t;"]

/-- The text of the library. -/
def text : String := String.join (lines.map (· ++ "\n"))

/-- The library as a program. -/
def program : Except SyntaxError Program := Program.fragmentOfText fileName text

end OpenQasm.StandardGates
