import CheriGzip.Libz.TableMade

/-!
# The tables for fixed codes

`inffixed.h`, which `makefixed` has written, and that its tables decode the fixed codes.
-/
namespace CheriGzip.Inflate

/-- `lenfix` -/
def lenfix : List Code :=
  [⟨96, 7, 0⟩, ⟨0, 8, 80⟩, ⟨0, 8, 16⟩, ⟨20, 8, 115⟩, ⟨18, 7, 31⟩, ⟨0, 8, 112⟩, ⟨0, 8, 48⟩,
   ⟨0, 9, 192⟩, ⟨16, 7, 10⟩, ⟨0, 8, 96⟩, ⟨0, 8, 32⟩, ⟨0, 9, 160⟩, ⟨0, 8, 0⟩, ⟨0, 8, 128⟩,
   ⟨0, 8, 64⟩, ⟨0, 9, 224⟩, ⟨16, 7, 6⟩, ⟨0, 8, 88⟩, ⟨0, 8, 24⟩, ⟨0, 9, 144⟩, ⟨19, 7, 59⟩,
   ⟨0, 8, 120⟩, ⟨0, 8, 56⟩, ⟨0, 9, 208⟩, ⟨17, 7, 17⟩, ⟨0, 8, 104⟩, ⟨0, 8, 40⟩, ⟨0, 9, 176⟩,
   ⟨0, 8, 8⟩, ⟨0, 8, 136⟩, ⟨0, 8, 72⟩, ⟨0, 9, 240⟩, ⟨16, 7, 4⟩, ⟨0, 8, 84⟩, ⟨0, 8, 20⟩,
   ⟨21, 8, 227⟩, ⟨19, 7, 43⟩, ⟨0, 8, 116⟩, ⟨0, 8, 52⟩, ⟨0, 9, 200⟩, ⟨17, 7, 13⟩, ⟨0, 8, 100⟩,
   ⟨0, 8, 36⟩, ⟨0, 9, 168⟩, ⟨0, 8, 4⟩, ⟨0, 8, 132⟩, ⟨0, 8, 68⟩, ⟨0, 9, 232⟩, ⟨16, 7, 8⟩,
   ⟨0, 8, 92⟩, ⟨0, 8, 28⟩, ⟨0, 9, 152⟩, ⟨20, 7, 83⟩, ⟨0, 8, 124⟩, ⟨0, 8, 60⟩, ⟨0, 9, 216⟩,
   ⟨18, 7, 23⟩, ⟨0, 8, 108⟩, ⟨0, 8, 44⟩, ⟨0, 9, 184⟩, ⟨0, 8, 12⟩, ⟨0, 8, 140⟩, ⟨0, 8, 76⟩,
   ⟨0, 9, 248⟩, ⟨16, 7, 3⟩, ⟨0, 8, 82⟩, ⟨0, 8, 18⟩, ⟨21, 8, 163⟩, ⟨19, 7, 35⟩, ⟨0, 8, 114⟩,
   ⟨0, 8, 50⟩, ⟨0, 9, 196⟩, ⟨17, 7, 11⟩, ⟨0, 8, 98⟩, ⟨0, 8, 34⟩, ⟨0, 9, 164⟩, ⟨0, 8, 2⟩,
   ⟨0, 8, 130⟩, ⟨0, 8, 66⟩, ⟨0, 9, 228⟩, ⟨16, 7, 7⟩, ⟨0, 8, 90⟩, ⟨0, 8, 26⟩, ⟨0, 9, 148⟩,
   ⟨20, 7, 67⟩, ⟨0, 8, 122⟩, ⟨0, 8, 58⟩, ⟨0, 9, 212⟩, ⟨18, 7, 19⟩, ⟨0, 8, 106⟩, ⟨0, 8, 42⟩,
   ⟨0, 9, 180⟩, ⟨0, 8, 10⟩, ⟨0, 8, 138⟩, ⟨0, 8, 74⟩, ⟨0, 9, 244⟩, ⟨16, 7, 5⟩, ⟨0, 8, 86⟩,
   ⟨0, 8, 22⟩, ⟨64, 8, 0⟩, ⟨19, 7, 51⟩, ⟨0, 8, 118⟩, ⟨0, 8, 54⟩, ⟨0, 9, 204⟩, ⟨17, 7, 15⟩,
   ⟨0, 8, 102⟩, ⟨0, 8, 38⟩, ⟨0, 9, 172⟩, ⟨0, 8, 6⟩, ⟨0, 8, 134⟩, ⟨0, 8, 70⟩, ⟨0, 9, 236⟩,
   ⟨16, 7, 9⟩, ⟨0, 8, 94⟩, ⟨0, 8, 30⟩, ⟨0, 9, 156⟩, ⟨20, 7, 99⟩, ⟨0, 8, 126⟩, ⟨0, 8, 62⟩,
   ⟨0, 9, 220⟩, ⟨18, 7, 27⟩, ⟨0, 8, 110⟩, ⟨0, 8, 46⟩, ⟨0, 9, 188⟩, ⟨0, 8, 14⟩, ⟨0, 8, 142⟩,
   ⟨0, 8, 78⟩, ⟨0, 9, 252⟩, ⟨96, 7, 0⟩, ⟨0, 8, 81⟩, ⟨0, 8, 17⟩, ⟨21, 8, 131⟩, ⟨18, 7, 31⟩,
   ⟨0, 8, 113⟩, ⟨0, 8, 49⟩, ⟨0, 9, 194⟩, ⟨16, 7, 10⟩, ⟨0, 8, 97⟩, ⟨0, 8, 33⟩, ⟨0, 9, 162⟩,
   ⟨0, 8, 1⟩, ⟨0, 8, 129⟩, ⟨0, 8, 65⟩, ⟨0, 9, 226⟩, ⟨16, 7, 6⟩, ⟨0, 8, 89⟩, ⟨0, 8, 25⟩,
   ⟨0, 9, 146⟩, ⟨19, 7, 59⟩, ⟨0, 8, 121⟩, ⟨0, 8, 57⟩, ⟨0, 9, 210⟩, ⟨17, 7, 17⟩, ⟨0, 8, 105⟩,
   ⟨0, 8, 41⟩, ⟨0, 9, 178⟩, ⟨0, 8, 9⟩, ⟨0, 8, 137⟩, ⟨0, 8, 73⟩, ⟨0, 9, 242⟩, ⟨16, 7, 4⟩,
   ⟨0, 8, 85⟩, ⟨0, 8, 21⟩, ⟨16, 8, 258⟩, ⟨19, 7, 43⟩, ⟨0, 8, 117⟩, ⟨0, 8, 53⟩, ⟨0, 9, 202⟩,
   ⟨17, 7, 13⟩, ⟨0, 8, 101⟩, ⟨0, 8, 37⟩, ⟨0, 9, 170⟩, ⟨0, 8, 5⟩, ⟨0, 8, 133⟩, ⟨0, 8, 69⟩,
   ⟨0, 9, 234⟩, ⟨16, 7, 8⟩, ⟨0, 8, 93⟩, ⟨0, 8, 29⟩, ⟨0, 9, 154⟩, ⟨20, 7, 83⟩, ⟨0, 8, 125⟩,
   ⟨0, 8, 61⟩, ⟨0, 9, 218⟩, ⟨18, 7, 23⟩, ⟨0, 8, 109⟩, ⟨0, 8, 45⟩, ⟨0, 9, 186⟩, ⟨0, 8, 13⟩,
   ⟨0, 8, 141⟩, ⟨0, 8, 77⟩, ⟨0, 9, 250⟩, ⟨16, 7, 3⟩, ⟨0, 8, 83⟩, ⟨0, 8, 19⟩, ⟨21, 8, 195⟩,
   ⟨19, 7, 35⟩, ⟨0, 8, 115⟩, ⟨0, 8, 51⟩, ⟨0, 9, 198⟩, ⟨17, 7, 11⟩, ⟨0, 8, 99⟩, ⟨0, 8, 35⟩,
   ⟨0, 9, 166⟩, ⟨0, 8, 3⟩, ⟨0, 8, 131⟩, ⟨0, 8, 67⟩, ⟨0, 9, 230⟩, ⟨16, 7, 7⟩, ⟨0, 8, 91⟩,
   ⟨0, 8, 27⟩, ⟨0, 9, 150⟩, ⟨20, 7, 67⟩, ⟨0, 8, 123⟩, ⟨0, 8, 59⟩, ⟨0, 9, 214⟩, ⟨18, 7, 19⟩,
   ⟨0, 8, 107⟩, ⟨0, 8, 43⟩, ⟨0, 9, 182⟩, ⟨0, 8, 11⟩, ⟨0, 8, 139⟩, ⟨0, 8, 75⟩, ⟨0, 9, 246⟩,
   ⟨16, 7, 5⟩, ⟨0, 8, 87⟩, ⟨0, 8, 23⟩, ⟨64, 8, 0⟩, ⟨19, 7, 51⟩, ⟨0, 8, 119⟩, ⟨0, 8, 55⟩,
   ⟨0, 9, 206⟩, ⟨17, 7, 15⟩, ⟨0, 8, 103⟩, ⟨0, 8, 39⟩, ⟨0, 9, 174⟩, ⟨0, 8, 7⟩, ⟨0, 8, 135⟩,
   ⟨0, 8, 71⟩, ⟨0, 9, 238⟩, ⟨16, 7, 9⟩, ⟨0, 8, 95⟩, ⟨0, 8, 31⟩, ⟨0, 9, 158⟩, ⟨20, 7, 99⟩,
   ⟨0, 8, 127⟩, ⟨0, 8, 63⟩, ⟨0, 9, 222⟩, ⟨18, 7, 27⟩, ⟨0, 8, 111⟩, ⟨0, 8, 47⟩, ⟨0, 9, 190⟩,
   ⟨0, 8, 15⟩, ⟨0, 8, 143⟩, ⟨0, 8, 79⟩, ⟨0, 9, 254⟩, ⟨96, 7, 0⟩, ⟨0, 8, 80⟩, ⟨0, 8, 16⟩,
   ⟨20, 8, 115⟩, ⟨18, 7, 31⟩, ⟨0, 8, 112⟩, ⟨0, 8, 48⟩, ⟨0, 9, 193⟩, ⟨16, 7, 10⟩, ⟨0, 8, 96⟩,
   ⟨0, 8, 32⟩, ⟨0, 9, 161⟩, ⟨0, 8, 0⟩, ⟨0, 8, 128⟩, ⟨0, 8, 64⟩, ⟨0, 9, 225⟩, ⟨16, 7, 6⟩,
   ⟨0, 8, 88⟩, ⟨0, 8, 24⟩, ⟨0, 9, 145⟩, ⟨19, 7, 59⟩, ⟨0, 8, 120⟩, ⟨0, 8, 56⟩, ⟨0, 9, 209⟩,
   ⟨17, 7, 17⟩, ⟨0, 8, 104⟩, ⟨0, 8, 40⟩, ⟨0, 9, 177⟩, ⟨0, 8, 8⟩, ⟨0, 8, 136⟩, ⟨0, 8, 72⟩,
   ⟨0, 9, 241⟩, ⟨16, 7, 4⟩, ⟨0, 8, 84⟩, ⟨0, 8, 20⟩, ⟨21, 8, 227⟩, ⟨19, 7, 43⟩, ⟨0, 8, 116⟩,
   ⟨0, 8, 52⟩, ⟨0, 9, 201⟩, ⟨17, 7, 13⟩, ⟨0, 8, 100⟩, ⟨0, 8, 36⟩, ⟨0, 9, 169⟩, ⟨0, 8, 4⟩,
   ⟨0, 8, 132⟩, ⟨0, 8, 68⟩, ⟨0, 9, 233⟩, ⟨16, 7, 8⟩, ⟨0, 8, 92⟩, ⟨0, 8, 28⟩, ⟨0, 9, 153⟩,
   ⟨20, 7, 83⟩, ⟨0, 8, 124⟩, ⟨0, 8, 60⟩, ⟨0, 9, 217⟩, ⟨18, 7, 23⟩, ⟨0, 8, 108⟩, ⟨0, 8, 44⟩,
   ⟨0, 9, 185⟩, ⟨0, 8, 12⟩, ⟨0, 8, 140⟩, ⟨0, 8, 76⟩, ⟨0, 9, 249⟩, ⟨16, 7, 3⟩, ⟨0, 8, 82⟩,
   ⟨0, 8, 18⟩, ⟨21, 8, 163⟩, ⟨19, 7, 35⟩, ⟨0, 8, 114⟩, ⟨0, 8, 50⟩, ⟨0, 9, 197⟩, ⟨17, 7, 11⟩,
   ⟨0, 8, 98⟩, ⟨0, 8, 34⟩, ⟨0, 9, 165⟩, ⟨0, 8, 2⟩, ⟨0, 8, 130⟩, ⟨0, 8, 66⟩, ⟨0, 9, 229⟩,
   ⟨16, 7, 7⟩, ⟨0, 8, 90⟩, ⟨0, 8, 26⟩, ⟨0, 9, 149⟩, ⟨20, 7, 67⟩, ⟨0, 8, 122⟩, ⟨0, 8, 58⟩,
   ⟨0, 9, 213⟩, ⟨18, 7, 19⟩, ⟨0, 8, 106⟩, ⟨0, 8, 42⟩, ⟨0, 9, 181⟩, ⟨0, 8, 10⟩, ⟨0, 8, 138⟩,
   ⟨0, 8, 74⟩, ⟨0, 9, 245⟩, ⟨16, 7, 5⟩, ⟨0, 8, 86⟩, ⟨0, 8, 22⟩, ⟨64, 8, 0⟩, ⟨19, 7, 51⟩,
   ⟨0, 8, 118⟩, ⟨0, 8, 54⟩, ⟨0, 9, 205⟩, ⟨17, 7, 15⟩, ⟨0, 8, 102⟩, ⟨0, 8, 38⟩, ⟨0, 9, 173⟩,
   ⟨0, 8, 6⟩, ⟨0, 8, 134⟩, ⟨0, 8, 70⟩, ⟨0, 9, 237⟩, ⟨16, 7, 9⟩, ⟨0, 8, 94⟩, ⟨0, 8, 30⟩,
   ⟨0, 9, 157⟩, ⟨20, 7, 99⟩, ⟨0, 8, 126⟩, ⟨0, 8, 62⟩, ⟨0, 9, 221⟩, ⟨18, 7, 27⟩, ⟨0, 8, 110⟩,
   ⟨0, 8, 46⟩, ⟨0, 9, 189⟩, ⟨0, 8, 14⟩, ⟨0, 8, 142⟩, ⟨0, 8, 78⟩, ⟨0, 9, 253⟩, ⟨96, 7, 0⟩,
   ⟨0, 8, 81⟩, ⟨0, 8, 17⟩, ⟨21, 8, 131⟩, ⟨18, 7, 31⟩, ⟨0, 8, 113⟩, ⟨0, 8, 49⟩, ⟨0, 9, 195⟩,
   ⟨16, 7, 10⟩, ⟨0, 8, 97⟩, ⟨0, 8, 33⟩, ⟨0, 9, 163⟩, ⟨0, 8, 1⟩, ⟨0, 8, 129⟩, ⟨0, 8, 65⟩,
   ⟨0, 9, 227⟩, ⟨16, 7, 6⟩, ⟨0, 8, 89⟩, ⟨0, 8, 25⟩, ⟨0, 9, 147⟩, ⟨19, 7, 59⟩, ⟨0, 8, 121⟩,
   ⟨0, 8, 57⟩, ⟨0, 9, 211⟩, ⟨17, 7, 17⟩, ⟨0, 8, 105⟩, ⟨0, 8, 41⟩, ⟨0, 9, 179⟩, ⟨0, 8, 9⟩,
   ⟨0, 8, 137⟩, ⟨0, 8, 73⟩, ⟨0, 9, 243⟩, ⟨16, 7, 4⟩, ⟨0, 8, 85⟩, ⟨0, 8, 21⟩, ⟨16, 8, 258⟩,
   ⟨19, 7, 43⟩, ⟨0, 8, 117⟩, ⟨0, 8, 53⟩, ⟨0, 9, 203⟩, ⟨17, 7, 13⟩, ⟨0, 8, 101⟩, ⟨0, 8, 37⟩,
   ⟨0, 9, 171⟩, ⟨0, 8, 5⟩, ⟨0, 8, 133⟩, ⟨0, 8, 69⟩, ⟨0, 9, 235⟩, ⟨16, 7, 8⟩, ⟨0, 8, 93⟩,
   ⟨0, 8, 29⟩, ⟨0, 9, 155⟩, ⟨20, 7, 83⟩, ⟨0, 8, 125⟩, ⟨0, 8, 61⟩, ⟨0, 9, 219⟩, ⟨18, 7, 23⟩,
   ⟨0, 8, 109⟩, ⟨0, 8, 45⟩, ⟨0, 9, 187⟩, ⟨0, 8, 13⟩, ⟨0, 8, 141⟩, ⟨0, 8, 77⟩, ⟨0, 9, 251⟩,
   ⟨16, 7, 3⟩, ⟨0, 8, 83⟩, ⟨0, 8, 19⟩, ⟨21, 8, 195⟩, ⟨19, 7, 35⟩, ⟨0, 8, 115⟩, ⟨0, 8, 51⟩,
   ⟨0, 9, 199⟩, ⟨17, 7, 11⟩, ⟨0, 8, 99⟩, ⟨0, 8, 35⟩, ⟨0, 9, 167⟩, ⟨0, 8, 3⟩, ⟨0, 8, 131⟩,
   ⟨0, 8, 67⟩, ⟨0, 9, 231⟩, ⟨16, 7, 7⟩, ⟨0, 8, 91⟩, ⟨0, 8, 27⟩, ⟨0, 9, 151⟩, ⟨20, 7, 67⟩,
   ⟨0, 8, 123⟩, ⟨0, 8, 59⟩, ⟨0, 9, 215⟩, ⟨18, 7, 19⟩, ⟨0, 8, 107⟩, ⟨0, 8, 43⟩, ⟨0, 9, 183⟩,
   ⟨0, 8, 11⟩, ⟨0, 8, 139⟩, ⟨0, 8, 75⟩, ⟨0, 9, 247⟩, ⟨16, 7, 5⟩, ⟨0, 8, 87⟩, ⟨0, 8, 23⟩,
   ⟨64, 8, 0⟩, ⟨19, 7, 51⟩, ⟨0, 8, 119⟩, ⟨0, 8, 55⟩, ⟨0, 9, 207⟩, ⟨17, 7, 15⟩, ⟨0, 8, 103⟩,
   ⟨0, 8, 39⟩, ⟨0, 9, 175⟩, ⟨0, 8, 7⟩, ⟨0, 8, 135⟩, ⟨0, 8, 71⟩, ⟨0, 9, 239⟩, ⟨16, 7, 9⟩,
   ⟨0, 8, 95⟩, ⟨0, 8, 31⟩, ⟨0, 9, 159⟩, ⟨20, 7, 99⟩, ⟨0, 8, 127⟩, ⟨0, 8, 63⟩, ⟨0, 9, 223⟩,
   ⟨18, 7, 27⟩, ⟨0, 8, 111⟩, ⟨0, 8, 47⟩, ⟨0, 9, 191⟩, ⟨0, 8, 15⟩, ⟨0, 8, 143⟩, ⟨0, 8, 79⟩,
   ⟨0, 9, 255⟩]

/-- `distfix` -/
def distfix : List Code :=
  [⟨16, 5, 1⟩, ⟨23, 5, 257⟩, ⟨19, 5, 17⟩, ⟨27, 5, 4097⟩, ⟨17, 5, 5⟩, ⟨25, 5, 1025⟩, ⟨21, 5, 65⟩,
   ⟨29, 5, 16385⟩, ⟨16, 5, 3⟩, ⟨24, 5, 513⟩, ⟨20, 5, 33⟩, ⟨28, 5, 8193⟩, ⟨18, 5, 9⟩,
   ⟨26, 5, 2049⟩, ⟨22, 5, 129⟩, ⟨64, 5, 0⟩, ⟨16, 5, 2⟩, ⟨23, 5, 385⟩, ⟨19, 5, 25⟩, ⟨27, 5, 6145⟩,
   ⟨17, 5, 7⟩, ⟨25, 5, 1537⟩, ⟨21, 5, 97⟩, ⟨29, 5, 24577⟩, ⟨16, 5, 4⟩, ⟨24, 5, 769⟩, ⟨20, 5, 49⟩,
   ⟨28, 5, 12289⟩, ⟨18, 5, 13⟩, ⟨26, 5, 3073⟩, ⟨22, 5, 193⟩, ⟨64, 5, 0⟩]

/-- The lengths of the fixed codes, as `fixedtables` has them under `BUILDFIXED`. -/
def fixedLens : List Nat :=
  List.replicate 144 8 ++ (List.replicate 112 9 ++ (List.replicate 24 7 ++ List.replicate 8 8))

def fixedDists : List Nat := List.replicate 32 5

/-- The length of a fixed code, and the code. -/
def fixedLen (sym : Nat) : Nat :=
  if sym < 144 then 8 else if sym < 256 then 9 else if sym < 280 then 7 else 8

def fixedCode (sym : Nat) : Nat :=
  if sym < 144 then 48 + sym
  else if sym < 256 then 400 + (sym - 144)
  else if sym < 280 then sym - 256
  else 192 + (sym - 280)

/-- What `lenfix` has for a symbol. -/
def fixedEntry (sym : Nat) : Nat × Nat :=
  if sym < 256 then (0, sym)
  else if sym = 256 then (96, 0)
  else if sym < 286 then (lext.getD (sym - 257) 0, lbase.getD (sym - 257) 0)
  else (64, 0)

theorem fixedLens_getD {sym : Nat} (inside : sym < 288) : fixedLens.getD sym 0 = fixedLen sym := by
  simp only [fixedLens, List.getD_eq_getElem?_getD, List.getElem?_append, List.length_replicate,
    List.getElem?_replicate, fixedLen]
  grind

theorem fixedLens_count (l sym : Nat) : (fixedLens.take sym).count l =
    (if l = 8 then min sym 144 + min (sym - 280) 8 else 0) +
      ((if l = 9 then min (sym - 144) 112 else 0) + (if l = 7 then min (sym - 256) 24 else 0)) := by
  simp only [fixedLens, List.take_append, List.length_replicate, List.take_replicate,
    List.count_append, List.count_replicate]
  grind

/-- The first codes of the lengths. -/
theorem fixedLens_firstCode : firstCode fixedLens 7 = 0 ∧ firstCode fixedLens 8 = 48 ∧
    firstCode fixedLens 9 = 400 := by
  decide +kernel

theorem fixedLens_codeOf {sym : Nat} (inside : sym < 288) :
    codeOf fixedLens sym = fixedCode sym := by
  obtain ⟨seven, eight, nine⟩ := fixedLens_firstCode
  rw [codeOf, fixedLens_getD inside, fixedLens_count]
  unfold fixedLen fixedCode
  split_ifs <;> simp [seven, eight, nine] <;> omega

/-- The symbol whose code an index ends in. -/
def fixedSymbol (index : Nat) : Nat :=
  let code := reverseBits 9 index
  if code < 96 then 256 + code / 4
  else if code < 384 then code / 2 - 48
  else if code < 400 then 280 + (code / 2 - 192)
  else 144 + (code - 400)

theorem fixedDists_codeOf : ∀ sym < 32, codeOf fixedDists sym = sym := by
  decide

theorem distfix_entry : ∀ sym < 32, distfix[reverseBits 5 sym]? =
    some ⟨dext.getD sym 0, 5, dbase.getD sym 0⟩ := by
  decide

theorem fixedLens_le : ∀ l ∈ fixedLens, l ≤ 15 := by
  intro l there
  simp only [fixedLens, List.mem_append, List.mem_replicate] at there
  omega

theorem fixedLens_taken : taken fixedLens 15 = 2 ^ 15 := by
  decide +kernel

theorem fixedDists_taken : taken fixedDists 15 = 2 ^ 15 := by
  decide

theorem here_fixedEntry : ∀ sym < 286, CodeType.lens.here sym 0 =
    some ⟨(fixedEntry sym).1, 0, (fixedEntry sym).2⟩ := by
  decide +kernel

theorem here_distfix : ∀ sym < 32, CodeType.dists.here sym 0 =
    some ⟨dext.getD sym 0, 0, dbase.getD sym 0⟩ := by
  decide

/-- What is there for no bits is there for all. -/
theorem CodeType.here_all {type : CodeType} {sym op val : Nat} (known : sym < type.symbols)
    (entry : type.here sym 0 = some ⟨op, 0, val⟩) :
    (∀ bits, type.kind.code ⟨op, bits, val⟩) ∧
      ∀ bits, type.here sym bits = some ⟨op, bits, val⟩ := by
  obtain ⟨op', val', code, here, -⟩ := type.here_some known
  have same : op' = op ∧ val' = val := by simpa using (here 0).symm.trans entry
  obtain ⟨rfl, rfl⟩ := same
  exact ⟨code, here⟩

/-- The symbols 286 and 287 have codewords, but no meaning. -/
theorem fixedEntry_means {sym : Nat} (inside : sym < 288) :
    (∀ bits, CodeType.lens.kind.code ⟨(fixedEntry sym).1, bits, (fixedEntry sym).2⟩) ∧
      ∀ bits, CodeType.lens.Means sym ⟨(fixedEntry sym).1, bits, (fixedEntry sym).2⟩ := by
  by_cases meant : sym < 286
  · obtain ⟨code, here⟩ := CodeType.here_all inside (here_fixedEntry sym meant)
    exact ⟨code, fun bits => .inl (here bits)⟩
  · have unmeant : fixedEntry sym = (64, 0) := by
      unfold fixedEntry
      grind
    rw [unmeant]
    exact ⟨CodeType.lens.isInvalid, fun bits => .inr ⟨rfl, by omega, 0, by decide, rfl⟩⟩

theorem lenfix_eq : lenfix = (List.range 512).map fun index =>
    let sym := fixedSymbol index
    ⟨(fixedEntry sym).1, fixedLen sym, (fixedEntry sym).2⟩ := by
  decide +kernel

theorem fixedSymbol_eq : ∀ sym < 288, ∀ i < 2 ^ (9 - fixedLen sym),
    reverseBits (fixedLen sym) (fixedCode sym) + i * 2 ^ fixedLen sym < 512 ∧
      fixedSymbol (reverseBits (fixedLen sym) (fixedCode sym) + i * 2 ^ fixedLen sym) = sym := by
  decide +kernel

theorem lenfix_entry {sym i : Nat} (inside : sym < 288) (few : i < 2 ^ (9 - fixedLen sym)) :
    lenfix[reverseBits (fixedLen sym) (fixedCode sym) + i * 2 ^ fixedLen sym]? =
      some ⟨(fixedEntry sym).1, fixedLen sym, (fixedEntry sym).2⟩ := by
  obtain ⟨below, same⟩ := fixedSymbol_eq sym inside i few
  rw [lenfix_eq, List.getElem?_map, List.getElem?_range below, Option.map_some]
  dsimp only
  rw [same]

theorem lenfix_finds : Finds .lens fixedLens lenfix 9 := by
  refine Finds.flat fixedLens_le fixedLens_taken (by decide) ?_
  intro sym inside some
  rw [fixedLens, List.length_append, List.length_append, List.length_append] at inside
  simp only [List.length_replicate] at inside
  rw [fixedLens_getD inside, fixedLens_codeOf inside]
  have short : fixedLen sym ≤ 9 := by
    unfold fixedLen
    split_ifs <;> decide
  obtain ⟨code, means⟩ := fixedEntry_means inside
  exact ⟨short, _, _, code, means _, fun i few => lenfix_entry inside few⟩

theorem distfix_finds : Finds .dists fixedDists distfix 5 := by
  refine Finds.flat (by decide) fixedDists_taken (by decide) ?_
  intro sym inside some
  have inside : sym < 32 := inside
  have five : fixedDists.getD sym 0 = 5 := by
    rw [fixedDists, List.getD_eq_getElem?_getD, List.getElem?_replicate_of_lt inside]
    rfl
  obtain ⟨code, here⟩ := CodeType.here_all inside (here_distfix sym inside)
  rw [five, fixedDists_codeOf sym inside]
  refine ⟨by decide, _, _, code, .inl (here _), fun i few => ?_⟩
  obtain rfl : i = 0 := Nat.lt_one_iff.mp few
  rw [Nat.zero_mul, Nat.add_zero]
  exact distfix_entry sym inside

end CheriGzip.Inflate
