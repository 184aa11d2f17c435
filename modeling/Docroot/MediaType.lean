import Docroot.Path

/-!
# Media types

The type of a file's content, guessed from the extension of its name alone, and
the `Content-Type` header it gives. Extensions are compared by Unicode case
folding; an extension that is not in the table, or none, gives
`application/octet-stream`. Textual types announce UTF-8.

The table has the types of the common extensions. It is a part of those in use:
an extension such as `flv` or `mkv`, which has a type elsewhere, is not in it.
-/

namespace Docroot.MediaType

/-- The type of content about which nothing is known. -/
def unknown : String := "application/octet-stream"

/-- The media types of the common extensions, each with the extensions that stand
    for it; far from every type there is. -/
def table : List (String × List String) := [
  ("application/atom+xml", ["atom"]),
  ("application/dash+xml", ["mpd"]),
  ("application/epub+zip", ["epub"]),
  ("application/font-sfnt", ["otf"]),
  ("application/font-woff", ["woff"]),
  ("application/geo+json", ["geojson"]),
  ("application/gpx+xml", ["gpx"]),
  ("application/gzip", ["gz"]),
  ("application/java-archive", ["jar"]),
  ("application/javascript", ["mjs"]),
  ("application/json", ["json"]),
  ("application/json5", ["json5"]),
  ("application/ld+json", ["jsonld"]),
  ("application/manifest+json", ["webmanifest"]),
  ("application/mathml+xml", ["mathml"]),
  ("application/msword", ["doc"]),
  ("application/n-triples", ["nt"]),
  ("application/pdf", ["pdf"]),
  ("application/postscript", ["ai", "eps", "ps"]),
  ("application/rdf+xml", ["rdf"]),
  ("application/rss+xml", ["rss"]),
  ("application/rtf", ["rtf"]),
  ("application/vnd.dart", ["dart"]),
  ("application/vnd.google-earth.kml+xml", ["kml"]),
  ("application/vnd.mozilla.xul+xml", ["xul"]),
  ("application/vnd.ms-excel", ["xls"]),
  ("application/vnd.ms-fontobject", ["eot"]),
  ("application/vnd.ms-pki.stl", ["stl"]),
  ("application/vnd.ms-powerpoint", ["ppt"]),
  ("application/vnd.oasis.opendocument.spreadsheet", ["ods"]),
  ("application/vnd.oasis.opendocument.text", ["odt"]),
  ("application/vnd.openxmlformats-officedocument.presentationml.presentation", ["pptx"]),
  ("application/vnd.openxmlformats-officedocument.spreadsheetml.sheet", ["xlsx"]),
  ("application/vnd.openxmlformats-officedocument.wordprocessingml.document", ["docx"]),
  ("application/wasm", ["wasm"]),
  ("application/x-7z-compressed", ["7z"]),
  ("application/x-bzip2", ["bz2"]),
  ("application/x-httpd-php", ["php"]),
  ("application/x-java-applet", ["class"]),
  ("application/x-mobipocket-ebook", ["mobi"]),
  ("application/x-ms-manifest", ["manifest"]),
  ("application/x-msdownload", ["dll", "bat"]),
  ("application/x-perl", ["pl"]),
  ("application/x-rar-compressed", ["rar"]),
  ("application/x-sh", ["sh"]),
  ("application/x-shockwave-flash", ["swf"]),
  ("application/x-sql", ["sql"]),
  ("application/x-subrip", ["srt"]),
  ("application/x-tar", ["tar"]),
  ("application/x-tex", ["tex"]),
  ("application/x-tgif", ["obj"]),
  ("application/xhtml+xml", ["xhtml"]),
  ("application/xml", ["aspx"]),
  ("application/zip", ["zip"]),
  ("audio/aac", ["aac"]),
  ("audio/flac", ["flac"]),
  ("audio/m4a", ["m4a"]),
  ("audio/mpeg", ["mp3"]),
  ("audio/ogg", ["ogg", "oga"]),
  ("audio/wav", ["wav"]),
  ("audio/x-mpegurl", ["m3u8"]),
  ("audio/x-pn-realaudio-plugin", ["rpm"]),
  ("font/ttf", ["ttf"]),
  ("font/woff2", ["woff2"]),
  ("image/avif", ["avif"]),
  ("image/bmp", ["bmp"]),
  ("image/gif", ["gif"]),
  ("image/jpeg", ["jpg", "jpeg"]),
  ("image/png", ["png"]),
  ("image/svg+xml", ["svg", "svgz"]),
  ("image/tiff", ["tif", "tiff"]),
  ("image/webp", ["webp"]),
  ("image/x-icon", ["ico"]),
  ("model/gltf+json", ["gltf"]),
  ("model/gltf-binary", ["glb"]),
  ("text/cache-manifest", ["appcache"]),
  ("text/calendar", ["ics"]),
  ("text/coffeescript", ["coffee"]),
  ("text/css", ["css"]),
  ("text/csv", ["csv"]),
  ("text/html", ["html", "htm", "shtml"]),
  ("text/javascript", ["js", "jsx"]),
  ("text/less", ["less"]),
  ("text/markdown", ["md", "markdown"]),
  ("text/n3", ["n3"]),
  ("text/plain", ["map", "txt", "text", "log", "py", "c", "h", "cpp", "hpp", "ini", "conf", "cfg"]),
  ("text/stylus", ["styl"]),
  ("text/tab-separated-values", ["tsv"]),
  ("text/turtle", ["ttl"]),
  ("text/vtt", ["vtt"]),
  ("text/x-handlebars-template", ["hbs"]),
  ("text/x-lua", ["lua"]),
  ("text/x-rust", ["rs"]),
  ("text/x-sass", ["sass"]),
  ("text/x-scss", ["scss"]),
  ("text/x-toml", ["toml"]),
  ("text/x-vcard", ["vcf"]),
  ("text/x-yaml", ["yaml", "yml"]),
  ("text/xml", ["xml", "xsl", "xsd", "dtd", "xslt", "wsdl"]),
  ("video/mp4", ["mp4"]),
  ("video/mpeg", ["mpeg", "mpg"]),
  ("video/ogg", ["ogv"]),
  ("video/quicktime", ["mov"]),
  ("video/vnd.dlna.mpeg-tts", ["ts"]),
  ("video/webm", ["webm"]),
  ("video/x-m4v", ["m4v"]),
  ("video/x-msvideo", ["avi"])]

/-- The case folding of a character, as far as it can meet the table: the ASCII
    capitals and the characters beyond ASCII that fold to ASCII letters. -/
def fold (c : Char) : List Char :=
  match c with
  | '\u017f' => ['s']
  | '\u212a' => ['k']
  | '\u00df' => ['s', 's']
  | '\u1e9e' => ['s', 's']
  | '\ufb00' => ['f', 'f']
  | '\ufb01' => ['f', 'i']
  | '\ufb02' => ['f', 'l']
  | '\ufb03' => ['f', 'f', 'i']
  | '\ufb04' => ['f', 'f', 'l']
  | '\ufb05' => ['s', 't']
  | '\ufb06' => ['s', 't']
  | c => [c.toLower]

/-- The type that an extension stands for. -/
def ofExtension? (extension : String) : Option String :=
  let folded := String.ofList (extension.toList.flatMap fold)
  (table.find? fun (_, extensions) => extensions.contains folded).map (·.1)

/-- The type of content under this name. -/
def ofName (name? : Option Name) : String :=
  ((name?.bind Name.extension?).bind ofExtension?).getD unknown

/-- Content of this type is text, and its encoding is announced. -/
def isTextual (type : String) : Bool :=
  type != "image/svg+xml" &&
    ("text/".toList.isPrefixOf type.toList || type == "application/javascript" ||
      "json".toList.isSuffixOf type.toList || "xml".toList.isSuffixOf type.toList)

/-- The header of content of this type. -/
def header (type : String) : String :=
  if isTextual type then type ++ "; charset=utf-8" else type

/-- The header of content under this name. -/
def headerOf (name? : Option Name) : String := header (ofName name?)

end Docroot.MediaType
