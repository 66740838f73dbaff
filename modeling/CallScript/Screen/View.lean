import CallScript.Screen.Basic

/- The whole screen as text. -/
namespace CallScript.Screen

def headerText : Bytes :=
  utf8 "funcs REPL\nType 'help' for available commands.\nType 'exit' or press Ctrl+D to quit.\n"

def editorLine (s : Screen) : Bytes :=
  let o := s.session.options
  let prompt := if s.continuing then o.continuation else o.prompt
  let cursor := if s.cursorOn then o.activeCursor else o.inactiveCursor
  prompt.block ++ s.buffer.take s.cursor ++ cursor ++ s.buffer.drop s.cursor ++ [Bytes.newline]

def view (s : Screen) : Bytes :=
  if s.quitting then utf8 "Goodbye!\n"
  else
    headerText.block ++ Bytes.newline :: s.pane.view ++ Bytes.newline ::
      if s.busy then utf8 "running... (Ctrl+C to stop)\n" else s.editorLine

end CallScript.Screen
