/-!
# Sample/Documents — the texts of the samples

Each document is given by its lines; every line ends with a line feed.
-/

namespace Flipbook.Sample

/-- The text of some lines, each with its line feed. -/
def document (lines : List String) : String := String.join (lines.map (· ++ "\n"))

/-- The machine of a hero who walks and runs by the speed, jumps, lands and waves. -/
def heroMachine : String := document [
  "\x7b",
  "  \"initial_state\": \"locomotion\",",
  "  \"variables\": [",
  "    \x7b \"name\": \"speed\", \"value\": 0 \x7d,",
  "    \x7b \"name\": \"tired\", \"value\": 0 \x7d",
  "  ],",
  "  \"states\": [",
  "    \x7b",
  "      \"id\": \"locomotion\",",
  "      \"name\": \"Locomotion\",",
  "      \"speed\": \"1 + speed * 0.5 - tired * 0.5\",",
  "      \"loop\": true,",
  "      \"animations\": [",
  "        \x7b \"name\": \"hero/idle\", \"weight\": \"match(speed, 0)\" \x7d,",
  "        \x7b \"name\": \"hero/walk\", \"weight\": \"match(speed, 1)\" \x7d,",
  "        \x7b \"name\": \"hero/run\", \"weight\": \"match(speed, 2)\" \x7d",
  "      ],",
  "      \"transitions\": [",
  "        \x7b \"event\": \"jump\", \"to\": \"jump\", \"mode\": \"immediate\" \x7d,",
  "        \x7b \"event\": \"emote\", \"to\": \"wave\", \"mode\": \"wait_until_end\" \x7d",
  "      ]",
  "    \x7d,",
  "    \x7b",
  "      \"id\": \"jump\",",
  "      \"name\": \"Jump\",",
  "      \"animations\": [\x7b \"name\": \"hero/jump\", \"weight\": \"1\" \x7d],",
  "      \"transitions\": [\x7b \"event\": \"animation_end\", \"to\": \"land\" \x7d]",
  "    \x7d,",
  "    \x7b",
  "      \"id\": \"land\",",
  "      \"name\": \"Land\",",
  "      \"animations\": [\x7b \"name\": \"hero/land\", \"weight\": \"1\" \x7d],",
  "      \"transitions\": [\x7b \"event\": \"animation_end\", \"to\": \"locomotion\" \x7d]",
  "    \x7d,",
  "    \x7b",
  "      \"id\": \"wave\",",
  "      \"name\": \"Wave\",",
  "      \"animations\": [\x7b \"name\": \"hero/wave\", \"weight\": \"1\" \x7d],",
  "      \"transitions\": [",
  "        \x7b \"event\": \"jump\", \"to\": \"jump\" \x7d,",
  "        \x7b \"event\": \"animation_end\", \"to\": \"locomotion\" \x7d",
  "      ]",
  "    \x7d",
  "  ]",
  "\x7d"]

/-- The machine of a door that closes once. -/
def doorMachine : String := document [
  "\x7b",
  "  \"initial_state\": \"closing\",",
  "  \"variables\": [\x7b \"name\": \"rate\", \"value\": 1 \x7d],",
  "  \"states\": [",
  "    \x7b",
  "      \"id\": \"closing\",",
  "      \"speed\": \"rate\",",
  "      \"animations\": [\x7b \"name\": \"door/close\", \"weight\": \"1\" \x7d]",
  "    \x7d",
  "  ]",
  "\x7d"]

/-- A machine whose only weight lacks an operand. -/
def brokenWeightMachine : String := document [
  "\x7b",
  "  \"initial_state\": \"idle\",",
  "  \"variables\": [\x7b \"name\": \"speed\", \"value\": 0 \x7d],",
  "  \"states\": [",
  "    \x7b",
  "      \"id\": \"idle\",",
  "      \"loop\": true,",
  "      \"animations\": [\x7b \"name\": \"hero/idle\", \"weight\": \"match(speed) * 2\" \x7d]",
  "    \x7d",
  "  ]",
  "\x7d"]

/-- The sprites of the hero. -/
def heroSprites : String := document [
  "\x7b",
  "  \"animations\": [",
  "    \x7b \"name\": \"hero/idle\", \"frames\": [0, 1, 2, 3], \"total_time\": 1.0 \x7d,",
  "    \x7b \"name\": \"hero/walk\", \"frames\": [10, 11, 12, 13], \"total_time\": 0.5 \x7d,",
  "    \x7b \"name\": \"hero/run\", \"frames\": [20, 21], \"total_time\": 0.25 \x7d,",
  "    \x7b \"name\": \"hero/jump\", \"frames\": [30, 31, 32, 33], \"total_time\": 0.5 \x7d,",
  "    \x7b \"name\": \"hero/land\", \"frames\": [40, 41], \"total_time\": 0.25 \x7d,",
  "    \x7b \"name\": \"hero/wave\", \"frames\": [50, 51, 52, 53], \"total_time\": 1.0 \x7d",
  "  ]",
  "\x7d"]

/-- The sprites of the door. -/
def doorSprites : String := document [
  "\x7b",
  "  \"animations\": [",
  "    \x7b \"name\": \"door/close\", \"frames\": [0, 1, 2, 3, 4], \"total_time\": 0.5 \x7d",
  "  ]",
  "\x7d"]

end Flipbook.Sample
