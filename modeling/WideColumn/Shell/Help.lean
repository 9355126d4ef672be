import WideColumn.Command.Keyword

/-! # Help on the commands -/
namespace WideColumn.Shell

structure HelpEntry where
  usage : String
  description : String

def helpOn : Keyword → HelpEntry
  | .create =>
    ⟨"create '<table_name>', '<column_family_1>', "
      ++ "\x7bNAME => '<column_family_2>', VERSIONS => 3\x7d, ...",
     "Creates a new table with the specified column families."⟩
  | .list =>
    ⟨"list ['<regex>']",
     "If no regex is specified, lists all tables. "
      ++ "Otherwise, lists tables whose whole name matches the regex."⟩
  | .disable => ⟨"disable '<table_name>'", "Disables the specified table."⟩
  | .enable => ⟨"enable '<table_name>'", "Enables the specified table."⟩
  | .isEnabled => ⟨"is_enabled '<table_name>'", "Checks if the specified table is enabled."⟩
  | .isDisabled => ⟨"is_disabled '<table_name>'", "Checks if the specified table is disabled."⟩
  | .alter =>
    ⟨"alter '<table_name>', \x7bNAME => '<column_family>', VERSIONS => 5\x7d, "
      ++ "\x7bNAME => '<column_family>', METHOD => 'delete'\x7d, ...",
     "Creates, updates or deletes column families of an existing table."⟩
  | .drop => ⟨"drop '<table_name>'", "Deletes a table. Table must be disabled first."⟩
  | .dropAll =>
    ⟨"drop_all '<regex>'", "Deletes all tables matching the regex. Tables must be disabled first."⟩
  | .describe =>
    ⟨"describe '<table_name>'", "Provides the description of the table and its column families."⟩
  | .put =>
    ⟨"put '<table_name>', '<row_id>', '<column_family>:<column_qualifier>', "
      ++ "'<value>'[, '<row_id>', ...]",
     "Puts cell values at the specified [row, column] pairs of the table."⟩
  | .get =>
    ⟨"get '<table_name>', '<row_id>'"
      ++ "[, \x7bCOLUMN => '<column_family>[:<column_qualifier>]', VERSIONS => n\x7d]",
     "Gets the contents of a row or cell."⟩
  | .scan => ⟨"scan '<table_name>'", "Scans and returns the table's data."⟩
  | .delete =>
    ⟨"delete '<table_name>', '<row_id>', '<column_family>:<column_qualifier>'",
     "Deletes a cell value in a table."⟩
  | .deleteAll => ⟨"delete_all '<table_name>', '<row_id>'", "Deletes all cells in a given row."⟩
  | .count => ⟨"count '<table_name>'", "Counts and returns the number of rows in a table."⟩
  | .truncate =>
    ⟨"truncate '<table_name>'", "Disables, drops and recreates the specified table."⟩
  | .help => ⟨"help ['<command>']", "Shows help for all commands or one command."⟩
  | .exit => ⟨"exit", "Leaves the shell."⟩

def helpLines (k : Keyword) : List String :=
  [k.text, "  Usage: " ++ (helpOn k).usage, "  " ++ (helpOn k).description]

def help : Option String → List String
  | none =>
    ["HBase Shell, version hbaselite",
     "Enter 'help '<command>'' for help on a specific command.", "", "COMMANDS:"]
      ++ (Keyword.all.flatMap helpLines).map ("  " ++ ·)
  | some topic =>
    match Keyword.all.find? fun k => k.text == topic with
    | some k => helpLines k
    | none => ["Unknown command '" ++ topic ++ "'. Try 'help'."]

end WideColumn.Shell
