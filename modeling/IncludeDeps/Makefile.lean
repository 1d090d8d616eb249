import IncludeDeps.Graph.Basic
import IncludeDeps.Path

/-!
# Makefiles

A Makefile lists the sources, links the program from their objects and has one
rule for each object.  It leaves `TARGET`, `TARGET_CC`, `TARGET_CFLAGS`,
`TARGET_LDFLAGS`, `LDFLAGS`, `CFLAGS` and `TARGET_OUTPUT` to the build that
includes it.
-/

namespace IncludeDeps

/-- Where a Makefile places what it builds. -/
structure MakefileSettings where
  /-- What comes before the name of an object. -/
  objectPrefix : String := "../obj/$(TARGET)/"
  /-- What comes before the name of the program. -/
  outputPrefix : String := "../bin/"
  /-- Whether objects have their prefix at all. -/
  prefixObjects : Bool := true
  deriving DecidableEq, Repr

namespace Makefile

/-- The name of the object made from a source. -/
def objectName (source : String) : String :=
  (Path.stem? source).getD source ++ ".o"

/-- The target of the rule for a source. -/
def target (settings : MakefileSettings) (source : String) : String :=
  if settings.prefixObjects then "$(addprefix $(OBJECT_PREFIX)," ++ objectName source ++ ")"
  else objectName source

/-- The recipe of every object rule. -/
def compileCommand : String :=
  "\t$(TARGET_CC) $(TARGET_CFLAGS) $(CFLAGS) -c -o $@ $<\n"

/-- The rule for a source, after an empty line. -/
def rule (settings : MakefileSettings) (entry : String × Prerequisites) : String :=
  "\n" ++ target settings entry.1 ++ ":" ++
    String.join (entry.2.paths.map fun path => " " ++ path) ++ "\n" ++ compileCommand

/-- The list of sources, one on each line. -/
def sourceList (sources : List String) : String :=
  "SOURCES=" ++ " \\\n        ".intercalate sources ++ "\n"

/-- The definition of the list of objects. -/
def objectList (settings : MakefileSettings) : String :=
  if settings.prefixObjects then
    "OBJECTS:=$(addprefix $(OBJECT_PREFIX),$(addsuffix .o,$(basename $(SOURCES))))\n"
  else "OBJECTS:=$(addsuffix .o,$(basename $(SOURCES)))\n"

/-- Everything between the list of sources and the rules for the objects. -/
def preamble (settings : MakefileSettings) : String :=
  "OBJECT_PREFIX:=" ++ settings.objectPrefix ++ "\n" ++
    objectList settings ++
    "OUTPUT_PREFIX:=" ++ settings.outputPrefix ++ "\n" ++
    "TARGET_OUTPUT:=$(addprefix $(OUTPUT_PREFIX),$(TARGET_OUTPUT))\n" ++
    "\n" ++
    "all: prepare_build $(TARGET_OUTPUT)\n" ++
    "\n" ++
    "prepare_build:\n" ++
    "\tmkdir -p $(OBJECT_PREFIX)\n" ++
    "\tmkdir -p $(OUTPUT_PREFIX)\n" ++
    ".PHONY: all prepare_build\n" ++
    "\n" ++
    "$(TARGET_OUTPUT): $(OBJECTS)\n" ++
    "\t$(TARGET_CC) $(TARGET_CFLAGS) $(TARGET_LDFLAGS) $(LDFLAGS) $(CFLAGS) $^ -o $@\n"

end Makefile

/-- The Makefile for a graph. -/
def Graph.makefile (graph : Graph) (settings : MakefileSettings) : String :=
  Makefile.sourceList graph.sources ++ "\n" ++ Makefile.preamble settings ++
    String.join (graph.entries.map (Makefile.rule settings))

end IncludeDeps
